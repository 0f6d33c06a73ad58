import Mathlib.Tactic
import YulTaint.Proofs.Sexp.Spelling

/-!
The lexemes behind an item. Whatever is read, an atom and a text stand for one
lexeme each, a list for what is between two brackets, and a quoted item for an
apostrophe and the item. The reader with its stack of open brackets accepts
exactly the sequences that fall into items this way, and it looks at no offset
for it.
-/

namespace YulTaint.Sexp

/-- No list has a place. -/
def nowhere : Nat → Position :=
  fun _ => {}

mutual

/-- The lexemes are those of the item. A list stands at the place given for the
offset of its opening parenthesis, except inside brackets and behind an
apostrophe. -/
inductive Parses : (Nat → Position) → List Lexeme → Sexp → Prop
  | atom (place : Nat → Position) (value : List Char) (offset : Nat) :
      Parses place [⟨.atom value, offset⟩] (.ofAtom value)
  | text (place : Nat → Position) (value : List Char) (offset : Nat) :
      Parses place [⟨.text value, offset⟩] (.text (String.ofList value))
  | list {place : Nat → Position} {lexemes : List Lexeme} {items : List Sexp} (offset closed : Nat)
      (hitems : ParsesAll place lexemes items) :
      Parses place (⟨.opening .round, offset⟩ :: (lexemes ++ [⟨.closing .round, closed⟩]))
        (.list (place offset) items)
  | bracketed {lexemes : List Lexeme} {items : List Sexp} (place : Nat → Position)
      (offset closed : Nat) (hitems : ParsesAll nowhere lexemes items) :
      Parses place (⟨.opening .square, offset⟩ :: (lexemes ++ [⟨.closing .square, closed⟩]))
        (.bracketed items)
  | quoted {lexemes : List Lexeme} {item : Sexp} (place : Nat → Position) (offset : Nat)
      (hitem : Parses nowhere lexemes item) :
      Parses place (⟨.quote, offset⟩ :: lexemes) (.quoted item)

/-- The lexemes are those of the items one after the other. -/
inductive ParsesAll : (Nat → Position) → List Lexeme → List Sexp → Prop
  | nil (place : Nat → Position) : ParsesAll place [] []
  | cons {place : Nat → Position} {lexemes more : List Lexeme} {item : Sexp} {items : List Sexp}
      (hitem : Parses place lexemes item) (hitems : ParsesAll place more items) :
      ParsesAll place (lexemes ++ more) (item :: items)

end

variable {place : Nat → Position} {lexemes : List Lexeme} {item : Sexp} {items : List Sexp}

theorem ofAtom_ne_list (value : List Char) (start : Position) (items : List Sexp) :
    ofAtom value ≠ .list start items := by
  unfold ofAtom
  split
  · exact Sexp.noConfusion
  · split <;> exact Sexp.noConfusion

theorem unplaced_ofAtom (value : List Char) : unplaced (ofAtom value) = ofAtom value := by
  unfold ofAtom
  split
  · rfl
  · split <;> rfl

/-- Behind a list there are its brackets and the lexemes of its items. -/
theorem Parses.exists_of_list {start : Position} (h : Parses place lexemes item)
    (hitem : item = .list start items) :
    ∃ inner offset closed,
      lexemes = ⟨.opening .round, offset⟩ :: (inner ++ [⟨.closing .round, closed⟩]) ∧
        start = place offset ∧ ParsesAll place inner items := by
  cases h with
  | atom _ value => exact absurd hitem (ofAtom_ne_list value start items)
  | list offset closed hitems =>
    cases hitem
    exact ⟨_, offset, closed, rfl, rfl, hitems⟩
  | text | bracketed | quoted => cases hitem

theorem ParsesAll.exists_of_cons (h : ParsesAll place lexemes (item :: items)) :
    ∃ own more, lexemes = own ++ more ∧ Parses place own item ∧ ParsesAll place more items := by
  cases h with
  | cons hitem hitems => exact ⟨_, _, rfl, hitem, hitems⟩

/-- The lexemes of each item are together. -/
theorem ParsesAll.exists_of_mem (h : ParsesAll place lexemes items) (hitem : item ∈ items) :
    ∃ front own back, lexemes = front ++ own ++ back ∧ Parses place own item := by
  induction items generalizing lexemes with
  | nil => cases hitem
  | cons first rest ih =>
    obtain ⟨own, more, rfl, hfirst, hrest⟩ := h.exists_of_cons
    rcases List.mem_cons.mp hitem with rfl | hitem
    · exact ⟨[], own, more, rfl, hfirst⟩
    · obtain ⟨front, middle, back, rfl, hmiddle⟩ := ih hrest hitem
      exact ⟨own ++ front, middle, back, by simp only [List.append_assoc], hmiddle⟩

theorem ParsesAll.concat (h : ParsesAll place lexemes items) {own : List Lexeme}
    (hitem : Parses place own item) : ParsesAll place (lexemes ++ own) (items ++ [item]) := by
  induction items generalizing lexemes with
  | nil =>
    cases h
    have hlast := ParsesAll.cons hitem (.nil place)
    rwa [List.append_nil] at hlast
  | cons first rest ih =>
    cases h with
    | cons hfirst hrest =>
      rw [List.append_assoc]
      exact .cons hfirst (ih hrest)

/-- Only a list depends on the places. -/
theorem Parses.list_or_free (h : Parses place lexemes item) :
    (∃ start items, item = .list start items) ∨ ∀ place', Parses place' lexemes item := by
  cases h with
  | atom _ value offset => exact .inr fun place' => .atom place' value offset
  | text _ value offset => exact .inr fun place' => .text place' value offset
  | list offset closed hitems => exact .inl ⟨_, _, rfl⟩
  | bracketed _ offset closed hitems => exact .inr fun place' => .bracketed place' offset closed hitems
  | quoted _ offset hitem => exact .inr fun place' => .quoted place' offset hitem

mutual

theorem Parses.unplaced_eq {lexemes : List Lexeme} {item : Sexp} (h : Parses nowhere lexemes item) :
    unplaced item = item := by
  cases item with
  | list start items =>
    obtain ⟨_, _, _, _, hstart, hitems⟩ := h.exists_of_list rfl
    rw [unplaced, hitems.unplacedAll_eq, hstart, nowhere]
  | _ => rfl
termination_by sizeOf item

theorem ParsesAll.unplacedAll_eq {lexemes : List Lexeme} {items : List Sexp}
    (h : ParsesAll nowhere lexemes items) : unplacedAll items = items := by
  cases items with
  | nil => rfl
  | cons item items =>
    obtain ⟨_, _, _, hitem, hitems⟩ := h.exists_of_cons
    rw [unplacedAll, hitem.unplaced_eq, hitems.unplacedAll_eq]
termination_by sizeOf items

end

mutual

/-- The same lexemes are behind the item with its lists elsewhere. -/
theorem Parses.exists_placed {lexemes : List Lexeme} {item : Sexp} (h : Parses place lexemes item)
    (place' : Nat → Position) :
    ∃ item', Parses place' lexemes item' ∧ unplaced item' = unplaced item := by
  rcases h.list_or_free with ⟨start, items, rfl⟩ | hfree
  · obtain ⟨_, offset, closed, rfl, _, hitems⟩ := h.exists_of_list rfl
    obtain ⟨items', hitems', hsame⟩ := hitems.exists_placed place'
    refine ⟨_, .list offset closed hitems', ?_⟩
    rw [unplaced, unplaced, hsame]
  · exact ⟨item, hfree place', rfl⟩
termination_by sizeOf item

theorem ParsesAll.exists_placed {lexemes : List Lexeme} {items : List Sexp}
    (h : ParsesAll place lexemes items) (place' : Nat → Position) :
    ∃ items', ParsesAll place' lexemes items' ∧ unplacedAll items' = unplacedAll items := by
  cases items with
  | nil =>
    cases h
    exact ⟨[], .nil place', rfl⟩
  | cons item items =>
    obtain ⟨_, _, rfl, hitem, hitems⟩ := h.exists_of_cons
    obtain ⟨item', hitem', hsame⟩ := hitem.exists_placed place'
    obtain ⟨items', hitems', hothers⟩ := hitems.exists_placed place'
    refine ⟨_, .cons hitem' hitems', ?_⟩
    rw [unplacedAll, unplacedAll, hsame, hothers]
termination_by sizeOf items

end

/-- The lexemes of one nesting level: its items, and the apostrophes that wait. -/
def LevelTaken (lexemes : List Lexeme) (level : Level) : Prop :=
  ∃ own, lexemes = own ++ level.quotes.reverse.map (Lexeme.mk .quote) ∧
    ParsesAll nowhere own level.items.reverse

/-- The lexemes taken so far make up the levels of the stack, each level but the
outermost one behind its opening bracket. -/
inductive Taken : List Lexeme → Reading → Prop
  | outermost {lexemes : List Lexeme} {level : Level} (hlevel : LevelTaken lexemes level) :
      Taken lexemes ⟨level, []⟩
  | inside {before lexemes : List Lexeme} {level inner : Level} {outer : List (Bracket × Level)}
      (bracket : Bracket) (offset : Nat) (houter : Taken before ⟨level, outer⟩)
      (hinner : LevelTaken lexemes inner) :
      Taken (before ++ ⟨.opening bracket, offset⟩ :: lexemes) ⟨inner, (bracket, level) :: outer⟩

theorem levelTaken_nil : LevelTaken [] {} :=
  ⟨[], rfl, .nil nowhere⟩

/-- Waiting apostrophes go before the item that takes them. -/
theorem Parses.quotes {own : List Lexeme} (h : Parses nowhere own item) (quotes : List Nat) :
    Parses nowhere (quotes.reverse.map (Lexeme.mk .quote) ++ own)
      (quotes.foldl (fun inner _ => .quoted inner) item) := by
  induction quotes generalizing own item with
  | nil => exact h
  | cons offset quotes ih =>
    rw [List.reverse_cons, List.map_append, List.append_assoc]
    exact ih (.quoted nowhere offset h)

theorem LevelTaken.push {level : Level} (h : LevelTaken lexemes level) {own : List Lexeme}
    (hitem : Parses nowhere own item) : LevelTaken (lexemes ++ own) (level.push item) := by
  obtain ⟨front, rfl, hfront⟩ := h
  refine ⟨front ++ (level.quotes.reverse.map (Lexeme.mk .quote) ++ own), ?_, ?_⟩
  · rw [List.append_assoc]
    exact (List.append_nil _).symm
  · rw [Level.push, List.reverse_cons]
    exact hfront.concat (hitem.quotes level.quotes)

theorem LevelTaken.quote {level : Level} (h : LevelTaken lexemes level) (offset : Nat) :
    LevelTaken (lexemes ++ [⟨.quote, offset⟩]) { level with quotes := offset :: level.quotes } := by
  obtain ⟨front, rfl, hfront⟩ := h
  refine ⟨front, ?_, hfront⟩
  rw [List.reverse_cons, List.map_append, List.append_assoc]
  rfl

/-- Lexemes that only the innermost level takes. -/
theorem Taken.extend {level level' : Level} {outer : List (Bracket × Level)}
    (h : Taken lexemes ⟨level, outer⟩) {more : List Lexeme}
    (hlevel : ∀ own, LevelTaken own level → LevelTaken (own ++ more) level') :
    Taken (lexemes ++ more) ⟨level', outer⟩ := by
  cases h with
  | outermost hown => exact .outermost (hlevel _ hown)
  | inside bracket offset houter hinner =>
    rw [List.append_assoc, List.cons_append]
    exact .inside bracket offset houter (hlevel _ hinner)

theorem Taken.levelTaken {r : Reading} (h : Taken lexemes r) (houter : r.outer = []) :
    LevelTaken lexemes r.level := by
  cases h with
  | outermost hlevel => exact hlevel
  | inside => cases houter

/-- A level that is closed becomes an item of the level around it. -/
theorem Taken.close {level inner : Level} {outer : List (Bracket × Level)} {bracket : Bracket}
    (h : Taken lexemes ⟨inner, (bracket, level) :: outer⟩) (hquotes : inner.quotes = [])
    (closed : Nat) :
    Taken (lexemes ++ [⟨.closing bracket, closed⟩])
      ⟨level.push (.ofItems bracket inner.items.reverse), outer⟩ := by
  cases h with
  | inside _ offset houter hinner =>
    obtain ⟨own, rfl, hown⟩ := hinner
    rw [hquotes, List.reverse_nil, List.map_nil, List.append_nil, List.append_assoc]
    refine houter.extend fun _ hlevel => hlevel.push ?_
    cases bracket with
    | round => exact .list offset closed hown
    | square => exact .bracketed nowhere offset closed hown

/-- A lexeme that is taken joins the levels of the stack. -/
theorem Taken.take {text : List Char} {r r' : Reading} {lexeme : Lexeme} (h : Taken lexemes r)
    (htake : r.take text lexeme = .ok r') : Taken (lexemes ++ [lexeme]) r' := by
  obtain ⟨token, offset⟩ := lexeme
  obtain ⟨level, outer⟩ := r
  cases token with
  | opening bracket =>
    cases htake
    exact .inside bracket offset h levelTaken_nil
  | closing bracket =>
    simp only [Reading.take] at htake
    split at htake
    · cases htake
    · cases htake
    · rename_i hquotes
      split at htake
      · rename_i hbracket
        cases htake
        subst hbracket
        exact h.close hquotes offset
      · cases htake
  | quote =>
    cases htake
    exact h.extend fun _ hlevel => hlevel.quote offset
  | text value =>
    cases htake
    exact h.extend fun _ hlevel => hlevel.push (.text nowhere value offset)
  | atom value =>
    cases htake
    exact h.extend fun _ hlevel => hlevel.push (.atom nowhere value offset)
  | unterminated => cases htake

theorem Taken.foldlM_take {text : List Char} {r r' : Reading} {more : List Lexeme}
    (h : Taken lexemes r) (htake : more.foldlM (Reading.take text) r = .ok r') :
    Taken (lexemes ++ more) r' := by
  induction more generalizing lexemes r with
  | nil =>
    cases htake
    rwa [List.append_nil]
  | cons lexeme more ih =>
    rw [List.foldlM_cons] at htake
    cases hstep : r.take text lexeme with
    | error reason =>
      rw [hstep] at htake
      cases htake
    | ok next =>
      rw [hstep] at htake
      have hnext := ih (h.take hstep) htake
      rwa [List.append_assoc] at hnext

/-- Whatever is read parses the lexemes of the text. -/
theorem parsesAll_of_readItems {text : List Char} (h : readItems text = .ok items) :
    ParsesAll nowhere (lex text) items := by
  rw [readItems] at h
  cases hrun : (lex text).foldlM (Reading.take text) {} with
  | error reason =>
    rw [hrun] at h
    cases h
  | ok r =>
    rw [hrun] at h
    have htaken := (Taken.outermost levelTaken_nil).foldlM_take hrun
    change r.close = .ok items at h
    unfold Reading.close at h
    split at h
    · cases h
    · cases h
    · rename_i hquotes houter
      cases h
      rw [List.nil_append] at htaken
      obtain ⟨own, hown, hitems⟩ := htaken.levelTaken houter
      rw [hquotes, List.reverse_nil, List.map_nil, List.append_nil] at hown
      rw [hown]
      exact hitems

/-- The text stands between two parentheses of which neither is its own. -/
theorem lex_wrap (text : List Char) :
    lex (wrap text) = ⟨.opening .round, 0⟩ :: lexFrom 2 .between (text ++ ['\n', ')']) :=
  rfl

/-- The forms of a text parse what stands between the two parentheses added. -/
theorem exists_parsesAll_of_readForms {text : List Char} (h : readForms text = .ok items) :
    ∃ lexemes closed, lexFrom 2 .between (text ++ ['\n', ')']) =
      lexemes ++ [⟨.closing .round, closed⟩] ∧ ParsesAll nowhere lexemes items := by
  rw [readForms] at h
  cases hread : readItems (wrap text) with
  | error reason =>
    rw [hread] at h
    cases h
  | ok read =>
    rw [hread] at h
    dsimp only [bind, Except.bind] at h
    split at h
    · rename_i start forms
      cases h
      have hparses := parsesAll_of_readItems hread
      generalize hlexemes : lex (wrap text) = lexemes at hparses
      cases hparses with
      | cons hitem hnone =>
        cases hnone
        obtain ⟨inner, offset, closed, rfl, _, hitems⟩ := hitem.exists_of_list rfl
        rw [lex_wrap, List.append_nil] at hlexemes
        exact ⟨inner, closed, (List.cons.inj hlexemes).2, hitems⟩
    · cases h

section Reading

variable {text : List Char}

/-- A closing bracket ends the level and hands it on as one item. -/
theorem foldlM_take_closed {own inner : List Lexeme} {bracket : Bracket}
    {read : List Sexp} (level : Level) (outer : List (Bracket × Level))
    (hown : own.map Lexeme.token = inner.map Lexeme.token ++ [.closing bracket])
    (hinner : ∀ front : List Lexeme, front.map Lexeme.token = inner.map Lexeme.token →
      front.foldlM (Reading.take text) ⟨⟨[], []⟩, (bracket, level) :: outer⟩ =
        .ok ⟨⟨read.reverse ++ [], []⟩, (bracket, level) :: outer⟩) :
    own.foldlM (Reading.take text) ⟨{}, (bracket, level) :: outer⟩ =
      .ok ⟨level.push (.ofItems bracket read), outer⟩ := by
  obtain ⟨front, last, rfl, hfront, hlast⟩ := List.map_eq_append_iff.mp hown
  obtain ⟨⟨token, offset⟩, rfl, rfl⟩ := List.map_eq_singleton_iff.mp hlast
  rw [List.foldlM_append]
  refine (congrArg (· >>= _) (hinner front hfront)).trans ?_
  change List.foldlM _ _ _ = _
  simp only [List.foldlM_cons, Reading.take, if_true, List.append_nil, List.reverse_reverse]
  rfl

mutual

/-- Lexemes with the tokens of an item are read as the item, wherever they stand. -/
theorem Parses.foldlM_take {place : Nat → Position} {lexemes own : List Lexeme} {item : Sexp}
    (h : Parses place lexemes item) (hown : own.map Lexeme.token = lexemes.map Lexeme.token)
    (level : Level) (outer : List (Bracket × Level)) :
    own.foldlM (Reading.take text) ⟨level, outer⟩ = .ok ⟨level.push (unplaced item), outer⟩ := by
  cases h with
  | atom _ value =>
    obtain ⟨⟨_, _⟩, rfl, rfl⟩ := List.map_eq_singleton_iff.mp hown
    rw [unplaced_ofAtom]
    rfl
  | text _ value =>
    obtain ⟨⟨_, _⟩, rfl, rfl⟩ := List.map_eq_singleton_iff.mp hown
    rfl
  | list _ _ hitems =>
    obtain ⟨⟨_, _⟩, others, rfl, rfl, hothers⟩ := List.map_eq_cons_iff.mp hown
    rw [List.map_append] at hothers
    exact foldlM_take_closed level outer hothers fun _ hfront => hitems.foldlM_take hfront [] _
  | bracketed _ _ _ hitems =>
    obtain ⟨⟨_, _⟩, others, rfl, rfl, hothers⟩ := List.map_eq_cons_iff.mp hown
    rw [List.map_append] at hothers
    have hinner := foldlM_take_closed level outer hothers fun _ hfront =>
      hitems.foldlM_take hfront [] _
    rw [hitems.unplacedAll_eq] at hinner
    exact hinner
  | quoted _ _ hitem =>
    obtain ⟨⟨_, _⟩, others, rfl, rfl, hothers⟩ := List.map_eq_cons_iff.mp hown
    rw [List.foldlM_cons]
    refine (hitem.foldlM_take hothers _ outer).trans ?_
    rw [hitem.unplaced_eq]
    rfl
termination_by sizeOf item

theorem ParsesAll.foldlM_take {place : Nat → Position} {lexemes own : List Lexeme}
    {items : List Sexp} (h : ParsesAll place lexemes items)
    (hown : own.map Lexeme.token = lexemes.map Lexeme.token) (before : List Sexp)
    (outer : List (Bracket × Level)) :
    own.foldlM (Reading.take text) ⟨⟨before, []⟩, outer⟩ =
      .ok ⟨⟨(unplacedAll items).reverse ++ before, []⟩, outer⟩ := by
  cases h with
  | nil =>
    obtain rfl := List.map_eq_nil_iff.mp hown
    rfl
  | cons hitem hitems =>
    rw [List.map_append] at hown
    obtain ⟨first, rest, rfl, hfirst, hrest⟩ := List.map_eq_append_iff.mp hown
    rw [List.foldlM_append, hitem.foldlM_take hfirst]
    refine (hitems.foldlM_take hrest _ outer).trans ?_
    rw [unplacedAll, List.reverse_cons, List.append_assoc]
    rfl
termination_by sizeOf items

end

/-- A text with the tokens of a list's inside is read as the items of the list. -/
theorem ParsesAll.readForms_eq (h : ParsesAll place lexemes items)
    (htext : (lexFrom 2 .between (text ++ ['\n', ')'])).map Lexeme.token =
      lexemes.map Lexeme.token ++ [.closing .round]) :
    readForms text = .ok (unplacedAll items) := by
  have hread : readItems (wrap text) = .ok [.list {} (unplacedAll items)] := by
    rw [readItems, lex_wrap, List.foldlM_cons]
    refine (congrArg (· >>= Reading.close) (foldlM_take_closed {} [] htext fun _ hfront =>
      h.foldlM_take hfront [] _)).trans ?_
    rfl
  rw [readForms, hread]
  rfl

end Reading

end YulTaint.Sexp
