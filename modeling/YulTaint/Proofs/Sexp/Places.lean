import Mathlib.Tactic
import YulTaint.Proofs.Sexp.Parses

/-!
Where the forms of a text stand. The scan for opening parentheses knows texts
and comments but neither brackets nor escapes outside a text. So the place of a
list is that of its opening parenthesis as long as nothing that the scan
mistakes stands before the list: no bracketed or quoted item, and no escaped
character that would begin something.
-/

namespace YulTaint

namespace Sexp

/-- The item is the form or stands somewhere in it, behind parentheses only. -/
inductive Holds : Sexp → Sexp → Prop
  | self (item : Sexp) : Holds item item
  | within {start : Position} {items : List Sexp} {part item : Sexp} (hpart : part ∈ items)
      (hitem : Holds part item) : Holds (.list start items) item

theorem Holds.trans {form part item : Sexp} (h : Holds form part) (hitem : Holds part item) :
    Holds form item := by
  induction h with
  | self => exact hitem
  | within hpart _ ih => exact .within hpart (ih hitem)

mutual

/-- No brackets and no apostrophes. -/
def isSimple : Sexp → Bool
  | .list _ items => areSimple items
  | .bracketed _ | .quoted _ => false
  | _ => true

def areSimple : List Sexp → Bool
  | [] => true
  | item :: rest => isSimple item && areSimple rest

end

@[simp] theorem isSimple_list (start : Position) (items : List Sexp) :
    isSimple (.list start items) = areSimple items :=
  rfl

@[simp] theorem isSimple_symbol (name : String) : isSimple (.symbol name) = true :=
  rfl

@[simp] theorem areSimple_nil : areSimple [] = true :=
  rfl

@[simp] theorem areSimple_cons (item : Sexp) (items : List Sexp) :
    areSimple (item :: items) = (isSimple item && areSimple items) :=
  rfl

theorem areSimple_append (front back : List Sexp) :
    areSimple (front ++ back) = (areSimple front && areSimple back) := by
  induction front with
  | nil => rfl
  | cons item front ih => rw [List.cons_append, areSimple, areSimple, ih, Bool.and_assoc]

/-- The form stands somewhere in the items, and all that opens before it is
simple or is open around it. -/
inductive Reaches : List Sexp → Sexp → Prop
  | here (form : Sexp) (rest : List Sexp) : Reaches (form :: rest) form
  | later {item form : Sexp} {rest : List Sexp} (hitem : isSimple item = true)
      (hform : Reaches rest form) : Reaches (item :: rest) form
  | inside {start : Position} {items rest : List Sexp} {form : Sexp} (hform : Reaches items form) :
      Reaches (.list start items :: rest) form

theorem Reaches.exists_holds {items : List Sexp} {form : Sexp} (h : Reaches items form) :
    ∃ item ∈ items, Holds item form := by
  induction h with
  | here form rest => exact ⟨form, List.mem_cons_self, .self form⟩
  | later _ _ ih =>
    obtain ⟨item, hitem, hform⟩ := ih
    exact ⟨item, List.mem_cons_of_mem _ hitem, hform⟩
  | inside _ ih =>
    obtain ⟨part, hpart, hform⟩ := ih
    exact ⟨_, List.mem_cons_self, .within hpart hform⟩

def Region.past (region : Region) (cs : List Char) : Region :=
  cs.foldl (fun region c => region.after c) region

/-- At the place there is an opening parenthesis outside texts and comments, and
what is between it and its closing parenthesis is read as the items. -/
def FormAt (text : List Char) (start : Position) (items : List Sexp) : Prop :=
  ∃ before inside after, text = before ++ '(' :: (inside ++ ')' :: after) ∧
    Region.past .code before = .code ∧ start = Position.past ⟨1, 1⟩ before ∧
    readForms inside = .ok items

def Region.isCode : Region → Bool
  | .code => true
  | _ => false

/-- The characters with a meaning for the scan. -/
def isScanned (c : Char) : Bool :=
  c = '(' || c = '"' || c = ';'

def unescapedFrom (escaped : Bool) (region : Region) : List Char → Bool
  | [] => true
  | c :: rest =>
    !(escaped && isScanned c) &&
      unescapedFrom (region.isCode && !escaped && c == '\\') (region.after c) rest

/-- Outside texts and comments no parenthesis, double quote or semicolon is
escaped. -/
def isUnescaped (text : List Char) : Bool :=
  unescapedFrom false .code text

theorem unescapedFrom_append {escaped : Bool} {region : Region} {front back : List Char}
    (h : unescapedFrom escaped region (front ++ back) = true) :
    unescapedFrom escaped region front = true := by
  induction front generalizing escaped region with
  | nil => rfl
  | cons c front ih =>
    rw [List.cons_append, unescapedFrom, Bool.and_eq_true] at h
    rw [unescapedFrom, Bool.and_eq_true]
    exact ⟨h.1, ih h.2⟩

def Mode.region : Mode → Region
  | .between | .atom .. | .atomEscape .. => .code
  | .comment => .comment
  | .text .. => .text
  | .textEscape .. => .textEscape

def Mode.isEscaped : Mode → Bool
  | .atomEscape .. => true
  | _ => false

def opened (place : Nat → Position) (lexemes : List Lexeme) : List Position :=
  lexemes.filterMap fun lexeme =>
    if lexeme.token = .opening .round then some (place lexeme.offset) else none

/-- Where a lexeme of a text stands that is read between two lines of its own. -/
def placeIn (text : List Char) (offset : Nat) : Position :=
  Position.past ⟨1, 1⟩ (text.take (offset - 2))

theorem opened_append (place : Nat → Position) (front back : List Lexeme) :
    opened place (front ++ back) = opened place front ++ opened place back :=
  List.filterMap_append

theorem opened_list (place : Nat → Position) (offset closed : Nat) (inner : List Lexeme) :
    opened place (⟨.opening .round, offset⟩ :: (inner ++ [⟨.closing .round, closed⟩])) =
      place offset :: opened place inner := by
  refine (congrArg (place offset :: ·) (opened_append place inner _)).trans ?_
  exact congrArg _ (List.append_nil _)

section Scan

variable {place : Nat → Position} {offset : Nat} {c : Char} {mode : Mode}

theorem lexFrom_advance (offset : Nat) (mode : Mode) (c : Char) (rest : List Char) :
    lexFrom offset mode (c :: rest) =
      (advance offset c mode).1 ++ lexFrom (offset + 1) (advance offset c mode).2 rest :=
  rfl

/-- The characters that begin something of their own where no token is under way. -/
def beginners : List Char :=
  ['(', ')', '[', ']', '\x27', '"', ';', '\\']

theorem begin_cases (c : Char) :
    c ∈ beginners ∨ c ∉ beginners ∧ ((∀ offset, begin offset c = ([], .between)) ∨
      ∀ offset, begin offset c = ([], .atom offset [c])) := by
  by_cases hmem : c ∈ beginners
  · exact .inl hmem
  refine .inr ⟨hmem, ?_⟩
  by_cases hblank : isSeparator c = true
  · exact .inl fun offset => if_pos hblank
  · simp only [beginners, List.mem_cons, List.not_mem_nil, or_false, not_or] at hmem
    obtain ⟨hopen, hclose, hsquare, hsquare', hquote, htext, hcomment, hescape⟩ := hmem
    refine .inr fun offset => ?_
    simp only [begin, hblank, hopen, hclose, hsquare, hsquare', hquote, htext, hcomment, hescape,
      if_false, Bool.false_eq_true]

/-- Other characters than these mean nothing to the scan outside texts and
comments. -/
theorem Region.code_of_ne (hopen : c ≠ '(') (htext : c ≠ '"') (hcomment : c ≠ ';') :
    Region.opens c .code = false ∧ Region.after c .code = .code := by
  refine ⟨decide_eq_false hopen, ?_⟩
  rw [Region.after, if_neg htext, if_neg hcomment]

/-- Both scans make the same of a character that begins something. -/
theorem begin_spec (place : Nat → Position) (offset : Nat) (c : Char) :
    opened place (begin offset c).1 = (if Region.opens c .code then [place offset] else []) ∧
      (begin offset c).2.region = Region.after c .code ∧
      (begin offset c).2.isEscaped = (c == '\\') := by
  rcases begin_cases c with hmem | ⟨hmem, hbegin⟩
  · simp only [beginners, List.mem_cons, List.not_mem_nil, or_false] at hmem
    rcases hmem with rfl | rfl | rfl | rfl | rfl | rfl | rfl | rfl <;> exact ⟨rfl, rfl, rfl⟩
  · simp only [beginners, List.mem_cons, List.not_mem_nil, or_false, not_or] at hmem
    obtain ⟨hopen, _, _, _, _, htext, hcomment, hescape⟩ := hmem
    obtain ⟨hopens, hafter⟩ := Region.code_of_ne hopen htext hcomment
    rw [hopens, hafter, beq_false_of_ne hescape]
    rcases hbegin with hblank | hatom
    · rw [hblank]
      exact ⟨rfl, rfl, rfl⟩
    · rw [hatom]
      exact ⟨rfl, rfl, rfl⟩

/-- Both scans make the same of every character, unless it is escaped and the scan
for parentheses does not see that. -/
theorem advance_spec (place : Nat → Position) (offset : Nat)
    (h : (mode.isEscaped && isScanned c) = false) :
    opened place (advance offset c mode).1 =
        (if mode.region.opens c then [place offset] else []) ∧
      (advance offset c mode).2.region = mode.region.after c ∧
      (advance offset c mode).2.isEscaped =
        (mode.region.isCode && !mode.isEscaped && c == '\\') := by
  cases mode with
  | between => exact begin_spec place offset c
  | comment =>
    rw [advance, Mode.region, Region.after]
    split <;> exact ⟨rfl, rfl, rfl⟩
  | text start reversed =>
    by_cases hquote : c = '"'
    · subst hquote
      exact ⟨rfl, rfl, rfl⟩
    · rw [advance, Mode.region, Region.after, if_neg hquote, if_neg hquote]
      split <;> exact ⟨rfl, rfl, rfl⟩
  | textEscape start reversed =>
    rw [advance]
    split <;> exact ⟨rfl, rfl, rfl⟩
  | atom start reversed =>
    by_cases hescape : c = '\\'
    · subst hescape
      exact ⟨rfl, rfl, rfl⟩
    · by_cases hends : endsAtom c = true
      · rw [advance, if_neg hescape, if_pos hends]
        exact begin_spec place offset c
      · rw [advance, if_neg hescape, if_neg hends]
        simp only [endsAtom, Bool.or_eq_true, decide_eq_true_eq, not_or] at hends
        obtain ⟨⟨⟨⟨⟨⟨_, hopen⟩, _⟩, _⟩, _⟩, htext⟩, hcomment⟩ := hends
        obtain ⟨hopens, hafter⟩ := Region.code_of_ne hopen htext hcomment
        rw [Mode.region, hopens, hafter, beq_false_of_ne hescape]
        exact ⟨rfl, rfl, rfl⟩
  | atomEscape start reversed =>
    have hscanned : isScanned c = false := h
    simp only [isScanned, Bool.or_eq_false_iff, decide_eq_false_iff_not] at hscanned
    obtain ⟨⟨hopen, htext⟩, hcomment⟩ := hscanned
    obtain ⟨hopens, hafter⟩ := Region.code_of_ne hopen htext hcomment
    rw [advance, Mode.region, hopens, hafter]
    split <;> exact ⟨rfl, rfl, rfl⟩

/-- The scan for parentheses notes the places of the lists that the lexemes open. -/
theorem opened_lexFrom {text cs : List Char} (front : List Char) (htext : text = front ++ cs)
    (h : unescapedFrom mode.isEscaped mode.region cs = true) :
    opened (placeIn text) (lexFrom (front.length + 2) mode (cs ++ ['\n', ')'])) =
      openingsFrom (Position.past ⟨1, 1⟩ front) mode.region cs := by
  induction cs generalizing front mode with
  | nil => cases mode <;> rfl
  | cons c cs ih =>
    rw [unescapedFrom, Bool.and_eq_true, Bool.not_eq_true'] at h
    obtain ⟨hopened, hregion, hescaped⟩ := advance_spec (placeIn text) (front.length + 2) h.1
    have hnext := @ih (advance (front.length + 2) c mode).2 (front ++ [c])
      (by rw [htext, List.append_assoc]; rfl) (by rw [hregion, hescaped]; exact h.2)
    have hplace : placeIn text (front.length + 2) = Position.past ⟨1, 1⟩ front := by
      rw [placeIn, htext, Nat.add_sub_cancel, List.take_left]
    rw [List.cons_append, lexFrom_advance, opened_append, hopened, openingsFrom_cons, hplace]
    rw [List.length_append, hregion, Position.past_append] at hnext
    exact congrArg _ hnext

end Scan

inductive Paren : Char → Token → Prop
  | opening : Paren '(' (.opening .round)
  | closing : Paren ')' (.closing .round)

section Split

variable {paren c : Char} {token : Token} {offset index : Nat} {mode : Mode}

theorem begin_paren (hparen : Paren paren token) (h : ⟨token, index⟩ ∈ (begin offset c).1) :
    c = paren ∧ index = offset := by
  rcases begin_cases c with hmem | ⟨_, hblank | hatom⟩
  · simp only [beginners, List.mem_cons, List.not_mem_nil, or_false] at hmem
    rcases hmem with rfl | rfl | rfl | rfl | rfl | hempty
    · cases hparen <;> cases List.mem_singleton.mp h
      exact ⟨rfl, rfl⟩
    · cases hparen <;> cases List.mem_singleton.mp h
      exact ⟨rfl, rfl⟩
    · cases hparen <;> cases List.mem_singleton.mp h
    · cases hparen <;> cases List.mem_singleton.mp h
    · cases hparen <;> cases List.mem_singleton.mp h
    · rcases hempty with rfl | rfl | rfl <;> cases h
  · rw [hblank] at h
    cases h
  · rw [hatom] at h
    cases h

/-- A parenthesis is a lexeme where no token is under way, or at the end of an
atom. A line break in its place would end the atom as well. -/
theorem advance_paren (hparen : Paren paren token)
    (h : ⟨token, index⟩ ∈ (advance offset c mode).1) :
    c = paren ∧ index = offset ∧ mode.region = .code ∧
      advance offset c mode = (finish mode ++ [⟨token, offset⟩], .between) ∧
      ∀ at', advance at' '\n' mode = (finish mode, .between) := by
  cases mode with
  | between =>
    obtain ⟨rfl, rfl⟩ := begin_paren hparen h
    refine ⟨rfl, rfl, rfl, ?_, fun _ => rfl⟩
    cases hparen <;> rfl
  | comment => cases h
  | text start reversed =>
    rw [advance] at h
    cases hparen <;> split_ifs at h <;> simp at h
  | textEscape start reversed =>
    rw [advance] at h
    split at h <;> cases h
  | atom start reversed =>
    rw [advance] at h
    split_ifs at h
    · cases h
    · rcases List.mem_cons.mp h with hatom | hbegin
      · cases hparen <;> cases hatom
      · obtain ⟨rfl, rfl⟩ := begin_paren hparen hbegin
        refine ⟨rfl, rfl, rfl, ?_, fun _ => rfl⟩
        cases hparen <;> rfl
    · cases h
  | atomEscape start reversed =>
    rw [advance] at h
    split_ifs at h <;> cases h

theorem not_mem_finish (hparen : Paren paren token) (mode : Mode) :
    ⟨token, index⟩ ∉ finish mode := by
  cases hparen <;> cases mode <;> simp [finish]

/-- The characters, scanned from a mode, are cut at a parenthesis. -/
structure Cut (offset : Nat) (mode : Mode) (cs : List Char) (paren : Char) (front : List Lexeme)
    (index : Nat) (back : List Lexeme) (before after : List Char) : Prop where
  chars : cs = before ++ paren :: after
  index_eq : index = offset + before.length
  /-- The lexemes before the parenthesis are those of the characters before it,
  which a line break ends as well. -/
  ended : ∀ rest, lexFrom offset mode (before ++ '\n' :: rest) =
    front ++ lexFrom (index + 1) .between rest
  resumed : lexFrom (index + 1) .between after = back
  outside : unescapedFrom mode.isEscaped mode.region before = true →
    mode.region.past before = .code

/-- A cut stays one when a character is put in front. -/
theorem Cut.cons {cs before after : List Char} {front back : List Lexeme}
    (h : Cut (offset + 1) (advance offset c mode).2 cs paren front index back before after) :
    Cut offset mode (c :: cs) paren ((advance offset c mode).1 ++ front) index back (c :: before)
      after where
  chars := by rw [h.chars, List.cons_append]
  index_eq := by
    rw [h.index_eq, List.length_cons]
    omega
  ended := by
    intro rest
    rw [List.cons_append, lexFrom_advance, h.ended, List.append_assoc]
  resumed := h.resumed
  outside := by
    intro hunescaped
    rw [unescapedFrom, Bool.and_eq_true, Bool.not_eq_true'] at hunescaped
    obtain ⟨_, hregion, hescaped⟩ := advance_spec nowhere offset hunescaped.1
    have houtside := h.outside
    rw [hregion, hescaped] at houtside
    exact houtside hunescaped.2

/-- Where a parenthesis is a lexeme, the text is cut at it. -/
theorem exists_cut_of_lexFrom (hparen : Paren paren token) {cs : List Char}
    {front back : List Lexeme} (h : lexFrom offset mode cs = front ++ ⟨token, index⟩ :: back) :
    ∃ before after, Cut offset mode cs paren front index back before after := by
  induction cs generalizing offset mode front with
  | nil =>
    have hmem : ⟨token, index⟩ ∈ finish mode := by
      rw [show finish mode = _ from h]
      exact List.mem_append_right _ List.mem_cons_self
    exact absurd hmem (not_mem_finish hparen mode)
  | cons c cs ih =>
    rw [lexFrom_advance] at h
    rcases List.append_eq_append_iff.mp h with ⟨middle, rfl, hrest⟩ | ⟨middle, hown, hrest⟩
    · obtain ⟨before, after, hcut⟩ := ih hrest
      exact ⟨_, _, hcut.cons⟩
    · cases middle with
      | nil =>
        rw [List.append_nil] at hown
        obtain ⟨before, after, hcut⟩ := @ih _ _ [] hrest.symm
        have hcons := hcut.cons
        rw [hown, List.append_nil] at hcons
        exact ⟨_, _, hcons⟩
      | cons first others =>
        obtain ⟨rfl, hback⟩ := List.cons.inj hrest
        have hmem : ⟨token, index⟩ ∈ (advance offset c mode).1 :=
          hown ▸ List.mem_append_right _ List.mem_cons_self
        obtain ⟨rfl, rfl, hregion, hadvance, hbreak⟩ := advance_paren hparen hmem
        rw [hadvance] at hown hback
        obtain ⟨rfl, _, rfl⟩ := (List.append_cons_inj_of_notMem (not_mem_finish hparen mode)
          List.not_mem_nil).mp hown
        refine ⟨[], cs, ⟨rfl, rfl, fun rest => ?_, hback.symm, fun _ => hregion⟩⟩
        rw [List.nil_append, lexFrom_advance, hbreak]

end Split

section Shift

def Mode.shift (distance : Nat) : Mode → Mode
  | .between => .between
  | .comment => .comment
  | .text start reversed => .text (start + distance) reversed
  | .textEscape start reversed => .textEscape (start + distance) reversed
  | .atom start reversed => .atom (start + distance) reversed
  | .atomEscape start reversed => .atomEscape (start + distance) reversed

def Lexeme.shift (distance : Nat) (lexeme : Lexeme) : Lexeme :=
  { lexeme with offset := lexeme.offset + distance }

theorem begin_shift (offset distance : Nat) (c : Char) :
    begin (offset + distance) c =
      ((begin offset c).1.map (Lexeme.shift distance), (begin offset c).2.shift distance) := by
  rcases begin_cases c with hmem | ⟨_, hblank | hatom⟩
  · simp only [beginners, List.mem_cons, List.not_mem_nil, or_false] at hmem
    rcases hmem with rfl | rfl | rfl | rfl | rfl | rfl | rfl | rfl <;> rfl
  · rw [hblank, hblank]
    rfl
  · rw [hatom, hatom]
    rfl

/-- The scan does not depend on where it starts to count. -/
theorem advance_shift (offset distance : Nat) (c : Char) (mode : Mode) :
    advance (offset + distance) c (mode.shift distance) =
      ((advance offset c mode).1.map (Lexeme.shift distance),
        (advance offset c mode).2.shift distance) := by
  cases mode with
  | between => exact begin_shift offset distance c
  | comment =>
    rw [Mode.shift, advance, advance]
    split <;> rfl
  | text start reversed =>
    rw [Mode.shift, advance, advance]
    split_ifs <;> rfl
  | textEscape start reversed =>
    rw [Mode.shift, advance, advance]
    split <;> rfl
  | atom start reversed =>
    rw [Mode.shift, advance, advance, begin_shift]
    split_ifs <;> rfl
  | atomEscape start reversed =>
    rw [Mode.shift, advance, advance]
    split_ifs <;> rfl

/-- Lexemes do not depend on where the text begins but for their offsets. -/
theorem lexFrom_shift (offset distance : Nat) (mode : Mode) (cs : List Char) :
    lexFrom (offset + distance) (mode.shift distance) cs =
      (lexFrom offset mode cs).map (Lexeme.shift distance) := by
  induction cs generalizing offset mode with
  | nil => cases mode <;> rfl
  | cons c cs ih =>
    rw [lexFrom_advance, lexFrom_advance, advance_shift, List.map_append, ← ih,
      Nat.add_right_comm]

theorem map_token_lexFrom (offset distance : Nat) (cs : List Char) :
    (lexFrom (offset + distance) .between cs).map Lexeme.token =
      (lexFrom offset .between cs).map Lexeme.token := by
  rw [show lexFrom (offset + distance) .between cs = _ from
    lexFrom_shift offset distance .between cs, List.map_map]
  rfl

end Shift

variable {place : Nat → Position} {lexemes : List Lexeme} {item : Sexp} {items : List Sexp}

/-- The lexemes of a list are together, wherever it stands. -/
theorem Holds.exists_lexemes {start : Position} {inner : List Sexp} {form : Sexp}
    (h : Holds item form) (hform : form = .list start inner) (hitem : Parses place lexemes item) :
    ∃ front middle back offset closed, lexemes =
        front ++ ⟨.opening .round, offset⟩ :: (middle ++ ⟨.closing .round, closed⟩ :: back) ∧
      start = place offset ∧ ParsesAll place middle inner := by
  induction h generalizing lexemes with
  | self =>
    obtain ⟨middle, offset, closed, rfl, hstart, hinner⟩ := hitem.exists_of_list hform
    exact ⟨[], middle, [], offset, closed, rfl, hstart, hinner⟩
  | within hpart _ ih =>
    obtain ⟨parts, offset, closed, rfl, _, hparts⟩ := hitem.exists_of_list rfl
    obtain ⟨front, own, back, rfl, hown⟩ := hparts.exists_of_mem hpart
    obtain ⟨front', middle, back', opened', closed', rfl, hstart, hinner⟩ := ih hform hown
    refine ⟨⟨.opening .round, offset⟩ :: front ++ front', middle,
      back' ++ back ++ [⟨.closing .round, closed⟩], opened', closed', ?_, hstart, hinner⟩
    simp only [List.append_assoc, List.cons_append]

/-- What is in front of the last line break and parenthesis belongs to the text. -/
theorem exists_of_append_closing {text front back : List Char}
    (h : text ++ ['\n', ')'] = front ++ ')' :: back) (hback : back ≠ []) :
    ∃ after, text = front ++ ')' :: after := by
  rcases List.append_eq_append_iff.mp h with ⟨middle, hfront, hrest⟩ | ⟨middle, htext, hrest⟩
  · cases middle with
    | nil => simp at hrest
    | cons first others =>
      simp only [List.cons_append, List.cons.injEq] at hrest
      obtain ⟨_, hrest⟩ := hrest
      cases others with
      | nil => exact absurd (List.cons.inj hrest).2.symm hback
      | cons second more => simp at hrest
  · cases middle with
    | nil => simp at hrest
    | cons first others =>
      obtain ⟨rfl, _⟩ := List.cons.inj hrest
      exact ⟨others, htext⟩

/-- A list of a readable text stands where its opening parenthesis does. -/
theorem formAt_of_holds {text : List Char} {closed : Nat}
    (hlex : lexFrom 2 .between (text ++ ['\n', ')']) = lexemes ++ [⟨.closing .round, closed⟩])
    (hitems : ParsesAll (placeIn text) lexemes items)
    (hunescaped : isUnescaped text = true) (hitem : item ∈ items) {start : Position}
    {inner : List Sexp} (hform : Holds item (.list start inner)) :
    FormAt text start (unplacedAll inner) := by
  obtain ⟨front, own, back, rfl, hown⟩ := hitems.exists_of_mem hitem
  obtain ⟨front', middle, back', offset, close, rfl, rfl, hinner⟩ := hform.exists_lexemes rfl hown
  simp only [List.append_assoc, List.cons_append] at hlex
  rw [← List.append_assoc] at hlex
  obtain ⟨before, rest, hopen⟩ := exists_cut_of_lexFrom .opening hlex
  obtain ⟨inside, later, hclose⟩ := exists_cut_of_lexFrom .closing hopen.resumed
  have hlater : later ≠ [] := by
    rintro rfl
    have hnone := hclose.resumed
    simp [lexFrom, finish] at hnone
  obtain ⟨after, hafter⟩ : ∃ after, text = before ++ '(' :: inside ++ ')' :: after := by
    refine exists_of_append_closing ?_ hlater
    rw [hopen.chars, hclose.chars, List.append_assoc, List.cons_append]
  rw [List.append_assoc, List.cons_append] at hafter
  refine ⟨before, inside, after, hafter, ?_, ?_, ?_⟩
  · rw [isUnescaped, hafter] at hunescaped
    exact hopen.outside (unescapedFrom_append hunescaped)
  · rw [placeIn, hopen.index_eq, Nat.add_sub_cancel_left, hafter, List.take_left]
  · refine hinner.readForms_eq ?_
    have hlast : lexFrom (close + 1) .between [')'] = [⟨.closing .round, close + 1⟩] := rfl
    have hended := hclose.ended [')']
    have hoffset : offset + 1 = 2 + (before.length + 1) := by
      rw [hopen.index_eq]
      omega
    rw [hlast, hoffset] at hended
    rw [← map_token_lexFrom 2 (before.length + 1), hended, List.map_append]
    rfl

mutual

theorem unplaced_locate (places : List Position) (item : Sexp) :
    unplaced (locate places item).1 = unplaced item := by
  cases item with
  | list start items =>
    rw [locate, unplaced, unplaced, unplacedAll_locateAll]
  | _ => rfl

theorem unplacedAll_locateAll (places : List Position) (items : List Sexp) :
    unplacedAll (locateAll places items).1 = unplacedAll items := by
  cases items with
  | nil => rfl
  | cons item rest =>
    rw [locateAll, unplacedAll, unplacedAll, unplaced_locate, unplacedAll_locateAll]

end

mutual

theorem isSimple_unplaced (item : Sexp) : isSimple (unplaced item) = isSimple item := by
  cases item with
  | list start items => rw [unplaced, isSimple, isSimple, areSimple_unplacedAll]
  | _ => rfl

theorem areSimple_unplacedAll (items : List Sexp) :
    areSimple (unplacedAll items) = areSimple items := by
  cases items with
  | nil => rfl
  | cons item rest =>
    rw [unplacedAll, areSimple, areSimple, isSimple_unplaced, areSimple_unplacedAll]

end

theorem isSimple_locate (places : List Position) (item : Sexp) :
    isSimple (locate places item).1 = isSimple item := by
  rw [← isSimple_unplaced, unplaced_locate, isSimple_unplaced]

theorem unplacedAll_idem (items : List Sexp) : unplacedAll (unplacedAll items) = unplacedAll items := by
  have hlocate := locateAll_unplaced items []
  rw [← unplacedAll_locateAll (startsAll items ++ []), hlocate]

theorem Parses.opened_eq_nil (h : Parses place lexemes item) (hsimple : isSimple item = true)
    (hlist : ∀ start items, item ≠ .list start items) : opened place lexemes = [] := by
  cases h with
  | atom | text => rfl
  | list => exact absurd rfl (hlist _ _)
  | bracketed | quoted => cases hsimple

mutual

/-- A simple item opens the lists that take a place, in order. -/
theorem Parses.opened_eq {lexemes : List Lexeme} {item : Sexp} (h : Parses place lexemes item)
    (hsimple : isSimple item = true) : opened place lexemes = starts item := by
  cases item with
  | list start items =>
    obtain ⟨inner, offset, closed, rfl, rfl, hitems⟩ := h.exists_of_list rfl
    rw [opened_list, starts, hitems.opened_eq hsimple]
  | _ => exact h.opened_eq_nil hsimple fun _ _ => Sexp.noConfusion
termination_by sizeOf item

theorem ParsesAll.opened_eq {lexemes : List Lexeme} {items : List Sexp}
    (h : ParsesAll place lexemes items) (hsimple : areSimple items = true) :
    opened place lexemes = startsAll items := by
  cases items with
  | nil =>
    cases h
    rfl
  | cons item rest =>
    obtain ⟨own, more, rfl, hitem, hrest⟩ := h.exists_of_cons
    rw [areSimple, Bool.and_eq_true] at hsimple
    rw [opened_append, startsAll, hitem.opened_eq hsimple.1, hrest.opened_eq hsimple.2]
termination_by sizeOf items

end

/-- A list takes the place of its first lexeme, and its items those of the lexemes
in it. -/
theorem Parses.exists_locate_list {start : Position} (h : Parses place lexemes (.list start items))
    (extra : List Position) :
    ∃ inner, ParsesAll place inner items ∧
      (locate (opened place lexemes ++ extra) (unplaced (.list start items))).1 =
        .list start (locateAll (opened place inner ++ extra) (unplacedAll items)).1 := by
  obtain ⟨inner, offset, closed, rfl, rfl, hitems⟩ := h.exists_of_list rfl
  refine ⟨inner, hitems, ?_⟩
  rw [opened_list, unplaced, locate]
  rfl

theorem exists_list_of_locate {places : List Position} {start : Position}
    (h : (locate places (unplaced item)).1 = .list start items) :
    ∃ start' items', item = .list start' items' := by
  cases item with
  | list start' items' => exact ⟨start', items', rfl⟩
  | _ => cases h

/-- As long as only simple items come before, lists are given the places of their
first lexemes. -/
theorem Reaches.exists_placed {located : List Sexp} {form : Sexp} (h : Reaches located form)
    {start : Position} {inner : List Sexp} (hform : form = .list start inner)
    (hitems : ParsesAll place lexemes items) {extra : List Position}
    (hlocated : (locateAll (opened place lexemes ++ extra) (unplacedAll items)).1 = located) :
    ∃ item ∈ items, ∃ inner', Holds item (.list start inner') ∧
      unplacedAll inner' = unplacedAll inner := by
  induction h generalizing items lexemes extra with
  | here form rest =>
    cases items with
    | nil => cases hlocated
    | cons item items =>
      obtain ⟨own, more, rfl, hitem, _⟩ := hitems.exists_of_cons
      have hfirst := (List.cons.inj hlocated).1
      rw [hform] at hfirst
      obtain ⟨start', inner', rfl⟩ := exists_list_of_locate hfirst
      rw [opened_append, List.append_assoc] at hfirst
      obtain ⟨middle, _, hlocate⟩ := hitem.exists_locate_list (opened place more ++ extra)
      obtain ⟨rfl, rfl⟩ := Sexp.list.inj (hlocate.symm.trans hfirst)
      refine ⟨_, List.mem_cons_self, inner', .self _, ?_⟩
      rw [unplacedAll_locateAll, unplacedAll_idem]
  | later hsimple _ ih =>
    cases items with
    | nil => cases hlocated
    | cons item items =>
      obtain ⟨own, more, rfl, hitem, hrest⟩ := hitems.exists_of_cons
      obtain ⟨hfirst, hothers⟩ := List.cons.inj hlocated
      rw [← hfirst, isSimple_locate, isSimple_unplaced] at hsimple
      rw [opened_append, List.append_assoc, hitem.opened_eq hsimple, locate_unplaced] at hothers
      obtain ⟨found, hfound, hholds⟩ := ih hform hrest hothers
      exact ⟨found, List.mem_cons_of_mem _ hfound, hholds⟩
  | inside _ ih =>
    cases items with
    | nil => cases hlocated
    | cons item items =>
      obtain ⟨own, more, rfl, hitem, _⟩ := hitems.exists_of_cons
      have hfirst := (List.cons.inj hlocated).1
      obtain ⟨start', inner', rfl⟩ := exists_list_of_locate hfirst
      rw [opened_append, List.append_assoc] at hfirst
      obtain ⟨middle, hmiddle, hlocate⟩ := hitem.exists_locate_list (opened place more ++ extra)
      obtain ⟨rfl, hparts⟩ := Sexp.list.inj (hlocate.symm.trans hfirst)
      obtain ⟨part, hpart, found, hholds, hsame⟩ := ih hform hmiddle hparts
      exact ⟨_, List.mem_cons_self, found, .within hpart hholds, hsame⟩

end Sexp

namespace Reader

open Sexp

/-- The forms of a text are its lexemes, and their lists are given the places of the
lexemes that open a list, in order. -/
theorem exists_lexemes_of_forms {text : String} {items : List Sexp} (h : forms text = .ok items)
    (hunescaped : isUnescaped text.toList = true) :
    ∃ lexemes closed placed,
      lexFrom 2 .between (text.toList ++ ['\n', ')']) = lexemes ++ [⟨.closing .round, closed⟩] ∧
        ParsesAll (placeIn text.toList) lexemes placed ∧
        (locateAll (opened (placeIn text.toList) lexemes ++ []) (unplacedAll placed)).1 = items := by
  rw [forms] at h
  cases hread : readForms text.toList with
  | error reason =>
    rw [hread] at h
    cases h
  | ok read =>
    rw [hread] at h
    have hlocated := Except.ok.inj h
    obtain ⟨lexemes, closed, hlex, hparses⟩ := exists_parsesAll_of_readForms hread
    obtain ⟨placed, hplaced, hsame⟩ := hparses.exists_placed (placeIn text.toList)
    rw [hparses.unplacedAll_eq] at hsame
    have hopenings : opened (placeIn text.toList) lexemes = openings text.toList := by
      have hscan := @opened_lexFrom .between _ _ [] rfl hunescaped
      rw [show [].length + 2 = 2 from rfl, hlex, opened_append] at hscan
      exact (List.append_nil _).symm.trans hscan
    refine ⟨lexemes, closed, placed, hlex, hplaced, ?_⟩
    rw [List.append_nil, hopenings, hsame, hlocated]

/-- A form of a text stands where its opening parenthesis does, if nothing before
it and no escape misleads the scan. -/
theorem formAt_of_forms {text : String} {items : List Sexp} (h : forms text = .ok items)
    (hunescaped : isUnescaped text.toList = true) {start : Position} {inner : List Sexp}
    (hform : Reaches items (.list start inner)) :
    FormAt text.toList start (unplacedAll inner) := by
  obtain ⟨lexemes, closed, placed, hlex, hplaced, hplaces⟩ := exists_lexemes_of_forms h hunescaped
  obtain ⟨item, hitem, inner', hholds, hinner⟩ := hform.exists_placed rfl hplaced hplaces
  rw [← hinner]
  exact formAt_of_holds hlex hplaced hunescaped hitem hholds

end Reader

end YulTaint
