import Mathlib.Tactic
import YulTaint.Program.Reader
import YulTaint.Proofs.Sexp.Atom

/-!
Forms written as text in any layout. Between two tokens there may be any blanks
and line comments, and there must be something only where two atoms would run
together. The reader finds the forms again, and its separate scan for opening
parentheses gives each list the place where it opens, whatever texts and comments
contain.
-/

namespace YulTaint

def Position.past (place : Position) (cs : List Char) : Position :=
  cs.foldl (fun place c => place.after c) place

theorem Position.past_append (place : Position) (a b : List Char) :
    place.past (a ++ b) = (place.past a).past b :=
  List.foldl_append

namespace Sexp

def blanks : List Char :=
  [' ', '\t', '\n', '\x0b', '\x0c', '\r']

/-- Blanks and line comments in any number and order. -/
inductive Gap : List Char → Prop
  | nil : Gap []
  | blank {c : Char} {rest : List Char} (hc : c ∈ blanks) (hrest : Gap rest) : Gap (c :: rest)
  | comment {cs rest : List Char} (hcs : '\n' ∉ cs) (hrest : Gap rest) :
      Gap (';' :: cs ++ '\n' :: rest)

/-- What follows cannot continue an atom. -/
def Apart : List Char → Prop
  | [] => True
  | c :: _ => c ∈ blanks ∨ c ∈ ['(', ')', '"', ';']

def escapeQuote (c : Char) : List Char :=
  if c = '\\' ∨ c = '"' then ['\\', c] else [c]

def quotedText (value : String) : List Char :=
  '"' :: value.toList.flatMap escapeQuote ++ ['"']

def isAtom : Sexp → Bool
  | .integer _ | .symbol _ | .real _ => true
  | _ => false

mutual

/-- The characters, of which the first stands at the place, are a spelling of the
form. A list bears the place of its opening parenthesis. -/
inductive Spells : Position → List Char → Sexp → Prop
  | integer (place : Position) {value : Int}
      (hdigits : (Nat.toDigits 10 value.natAbs).length ≤ Decimal.maxIntegerDigits) :
      Spells place (decimal value) (.integer value)
  | symbol (place : Position) {name : String} (hname : isName name = true) :
      Spells place name.toList (.symbol name)
  | text (place : Position) (value : String) : Spells place (quotedText value) (.text value)
  | list {place : Position} {cs : List Char} {items : List Sexp}
      (hitems : SpellsAll (place.after '(') cs items) :
      Spells place ('(' :: cs ++ [')']) (.list place items)

/-- The characters are a spelling of the forms one after the other, with gaps
around them. -/
inductive SpellsAll : Position → List Char → List Sexp → Prop
  | nil (place : Position) {gap : List Char} (hgap : Gap gap) : SpellsAll place gap []
  | cons {place : Position} {gap cs rest : List Char} {item : Sexp} {items : List Sexp}
      (hgap : Gap gap) (hitem : Spells (place.past gap) cs item)
      (hnext : item.isAtom = true → Apart rest)
      (hrest : SpellsAll ((place.past gap).past cs) rest items) :
      SpellsAll place (gap ++ cs ++ rest) (item :: items)

end

/-- The text lays out the forms. A comment may end it. -/
def Layout (text : String) (items : List Sexp) : Prop :=
  SpellsAll ⟨1, 1⟩ (text.toList ++ ['\n']) items

section Tokens

variable {offset : Nat} {cs gap rest : List Char}

theorem endsAtom_of_apart {c : Char} (h : c ∈ blanks ∨ c ∈ ['(', ')', '"', ';']) :
    endsAtom c = true := by
  have hall : (blanks ++ ['(', ')', '"', ';']).all endsAtom = true := by decide
  exact List.all_eq_true.mp hall c (List.mem_append.mpr h)

theorem isSeparator_of_mem_blanks {c : Char} (h : c ∈ blanks) : isSeparator c = true := by
  have hall : blanks.all isSeparator = true := by decide
  exact List.all_eq_true.mp hall c h

theorem lexFrom_cons {mode next : Mode} {c : Char} {own : List Lexeme}
    (h : advance offset c mode = (own, next)) (rest : List Char) :
    lexFrom offset mode (c :: rest) = own ++ lexFrom (offset + 1) next rest := by
  rw [lexFrom, h]

theorem lexFrom_opening (offset : Nat) (rest : List Char) :
    lexFrom offset .between ('(' :: rest) =
      ⟨.opening .round, offset⟩ :: lexFrom (offset + 1) .between rest :=
  rfl

theorem lexFrom_closing (offset : Nat) (rest : List Char) :
    lexFrom offset .between (')' :: rest) =
      ⟨.closing .round, offset⟩ :: lexFrom (offset + 1) .between rest :=
  rfl

theorem lexFrom_comment (h : '\n' ∉ cs) (offset : Nat) (rest : List Char) :
    lexFrom offset .comment (cs ++ '\n' :: rest) =
      lexFrom (offset + (cs.length + 1)) .between rest := by
  induction cs generalizing offset with
  | nil => rfl
  | cons c cs ih =>
    obtain ⟨hc, hcs⟩ := not_or.mp (List.mem_cons.not.mp h)
    have hstep : advance offset c .comment = ([], .comment) := by
      rw [advance, if_neg (Ne.symm hc)]
    rw [List.cons_append, lexFrom_cons hstep, List.nil_append, ih hcs, List.length_cons]
    congr 1
    omega

/-- Gaps have no lexemes. -/
theorem lexFrom_gap (h : Gap gap) (offset : Nat) (rest : List Char) :
    lexFrom offset .between (gap ++ rest) = lexFrom (offset + gap.length) .between rest := by
  induction h generalizing offset with
  | nil => rfl
  | @blank c _ hc _ ih =>
    have hstep : advance offset c .between = ([], .between) :=
      if_pos (isSeparator_of_mem_blanks hc)
    rw [List.cons_append, lexFrom_cons hstep, List.nil_append, ih, List.length_cons]
    congr 1
    omega
  | @comment cs more hcs _ ih =>
    have hstep : advance offset ';' .between = ([], .comment) := rfl
    rw [List.cons_append, List.cons_append, List.append_assoc, List.cons_append, lexFrom_cons hstep,
      List.nil_append, lexFrom_comment hcs, ih]
    congr 1
    simp only [List.length_cons, List.length_append]
    omega

/-- An atom runs on up to where something else begins. -/
theorem lexFrom_inAtom (h : ∀ c ∈ cs, isPlain c = true) (hrest : Apart rest) (offset start : Nat)
    (reversed : List Char) :
    lexFrom offset (.atom start reversed) (cs ++ rest) =
      ⟨.atom (reversed.reverse ++ cs), start⟩ :: lexFrom (offset + cs.length) .between rest := by
  induction cs generalizing offset reversed with
  | nil =>
    rw [List.append_nil, List.nil_append]
    cases rest with
    | nil => rfl
    | cons c more =>
      have hends := endsAtom_of_apart hrest
      have hescape : c ≠ '\\' := by
        rintro rfl
        cases hends
      have hstep : advance offset c (.atom start reversed) =
          (⟨.atom reversed.reverse, start⟩ :: (begin offset c).1, (begin offset c).2) := by
        rw [advance, if_neg hescape, if_pos hends]
      have hbegin : advance offset c .between = ((begin offset c).1, (begin offset c).2) := rfl
      rw [lexFrom_cons hstep, List.cons_append]
      exact congrArg _ (lexFrom_cons hbegin more).symm
  | cons c cs ih =>
    obtain ⟨_, hends, hescape, _⟩ := isPlain_spec (h c List.mem_cons_self)
    have hstep : advance offset c (.atom start reversed) = ([], .atom start (c :: reversed)) := by
      rw [advance, if_neg hescape, hends]
      rfl
    rw [List.cons_append, lexFrom_cons hstep, List.nil_append,
      ih fun d hd => h d (List.mem_cons_of_mem _ hd)]
    rw [List.reverse_cons, List.append_assoc, List.singleton_append, List.length_cons]
    congr 2
    omega

theorem begin_of_isPlain {c : Char} (h : isPlain c = true) (offset : Nat) :
    begin offset c = ([], .atom offset [c]) := by
  obtain ⟨_, hends, hescape, hquote⟩ := isPlain_spec h
  simp only [endsAtom, Bool.or_eq_false_iff, decide_eq_false_iff_not] at hends
  obtain ⟨⟨⟨⟨⟨⟨hblank, hopen⟩, hclose⟩, hsquare⟩, hsquare'⟩, htext⟩, hcomment⟩ := hends
  simp only [begin, hblank, hopen, hclose, hsquare, hsquare', htext, hcomment, hescape, hquote,
    if_false, Bool.false_eq_true]

/-- A plain word is one lexeme. -/
theorem lexFrom_atom (h : ∀ c ∈ cs, isPlain c = true) (hne : cs ≠ []) (hrest : Apart rest)
    (offset : Nat) : lexFrom offset .between (cs ++ rest) =
      ⟨.atom cs, offset⟩ :: lexFrom (offset + cs.length) .between rest := by
  cases cs with
  | nil => exact absurd rfl hne
  | cons c cs =>
    have hstep : advance offset c .between = ([], .atom offset [c]) :=
      begin_of_isPlain (h c List.mem_cons_self) offset
    rw [List.cons_append, lexFrom_cons hstep, List.nil_append,
      lexFrom_inAtom (fun d hd => h d (List.mem_cons_of_mem _ hd)) hrest, List.length_cons]
    congr 2
    omega

/-- Inside a text, escaped characters are taken for what they stand for. -/
theorem lexFrom_inText (value : List Char) (offset start : Nat) (reversed rest : List Char) :
    lexFrom offset (.text start reversed) (value.flatMap escapeQuote ++ '"' :: rest) =
      ⟨.text (reversed.reverse ++ value), start⟩ ::
        lexFrom (offset + ((value.flatMap escapeQuote).length + 1)) .between rest := by
  induction value generalizing offset reversed with
  | nil =>
    rw [List.append_nil]
    rfl
  | cons c value ih =>
    have hreversed : (c :: reversed).reverse ++ value = reversed.reverse ++ c :: value := by
      rw [List.reverse_cons, List.append_assoc, List.singleton_append]
    rw [List.flatMap_cons, escapeQuote]
    by_cases hc : c = '\\' ∨ c = '"'
    · have hescape : advance offset '\\' (.text start reversed) =
          ([], .textEscape start reversed) := rfl
      have hplain : advance (offset + 1) c (.textEscape start reversed) =
          ([], .text start (c :: reversed)) := by
        rcases hc with rfl | rfl <;> rfl
      rw [if_pos hc, List.append_assoc, List.cons_append, List.singleton_append,
        lexFrom_cons hescape, lexFrom_cons hplain, List.nil_append, List.nil_append, ih, hreversed]
      congr 2
      simp only [List.length_append, List.length_cons, List.length_nil]
      omega
    · obtain ⟨hescape, hquote⟩ := not_or.mp hc
      have hstep : advance offset c (.text start reversed) = ([], .text start (c :: reversed)) := by
        rw [advance, if_neg hquote, if_neg hescape]
      rw [if_neg hc, List.append_assoc, List.singleton_append, lexFrom_cons hstep, List.nil_append,
        ih, hreversed]
      congr 2
      simp only [List.length_append, List.length_cons, List.length_nil]
      omega

theorem lexFrom_quotedText (value : String) (offset : Nat) (rest : List Char) :
    lexFrom offset .between (quotedText value ++ rest) =
      ⟨.text value.toList, offset⟩ ::
        lexFrom (offset + (quotedText value).length) .between rest := by
  have hstep : advance offset '"' .between = ([], .text offset []) := rfl
  rw [quotedText, List.cons_append, List.cons_append, List.append_assoc, List.singleton_append,
    lexFrom_cons hstep, List.nil_append, lexFrom_inText]
  congr 2
  simp only [List.length_append, List.length_cons, List.length_nil]
  omega

end Tokens

mutual

def unplaced : Sexp → Sexp
  | .list _ items => .list {} (unplacedAll items)
  | other => other

def unplacedAll : List Sexp → List Sexp
  | [] => []
  | item :: rest => unplaced item :: unplacedAll rest

end

theorem isPlain_of_mem_name {name : String} (h : isName name = true) :
    name.toList ≠ [] ∧ ∀ c ∈ name.toList, isPlain c = true := by
  unfold isName at h
  split at h
  · cases h
  · rename_i c cs hname
    simp only [Bool.and_eq_true] at h
    rw [hname]
    refine ⟨List.cons_ne_nil c cs, fun d hd => ?_⟩
    rcases List.mem_cons.mp hd with rfl | hd
    · simp [isPlain, isNameChar, h.1.1]
    · simp [isPlain, List.all_eq_true.mp h.1.2 d hd]

theorem decimal_ne_nil (value : Int) : decimal value ≠ [] := by
  rw [decimal_eq]
  exact List.append_ne_nil_of_right_ne_nil _ Nat.toDigits_ne_nil

theorem apart_closing (rest : List Char) : Apart (')' :: rest) :=
  Or.inr (by simp)

theorem Apart.append {rest tail : List Char} (hrest : Apart rest) (htail : Apart tail) :
    Apart (rest ++ tail) := by
  cases rest with
  | nil => exact htail
  | cons c more => exact hrest

/-- A plain token is put behind the items read so far. -/
theorem foldlM_atom {text cs rest : List Char} (h : ∀ c ∈ cs, isPlain c = true) (hne : cs ≠ [])
    (hrest : Apart rest) (offset : Nat) (before : List Sexp) (outer : List (Bracket × Level)) :
    (lexFrom offset .between (cs ++ rest)).foldlM (Reading.take text) ⟨⟨before, []⟩, outer⟩ =
      (lexFrom (offset + cs.length) .between rest).foldlM (Reading.take text)
        ⟨⟨ofAtom cs :: before, []⟩, outer⟩ := by
  rw [lexFrom_atom h hne hrest, List.foldlM_cons]
  rfl

mutual

/-- A spelled form is put behind the items read so far. -/
theorem Spells.foldlM_take {place : Position} {cs : List Char} {item : Sexp}
    (h : Spells place cs item) {rest : List Char} (hrest : item.isAtom = true → Apart rest)
    (text : List Char) (offset : Nat) (before : List Sexp) (outer : List (Bracket × Level)) :
    (lexFrom offset .between (cs ++ rest)).foldlM (Reading.take text) ⟨⟨before, []⟩, outer⟩ =
      (lexFrom (offset + cs.length) .between rest).foldlM (Reading.take text)
        ⟨⟨unplaced item :: before, []⟩, outer⟩ := by
  cases h with
  | integer _ hdigits =>
    rw [foldlM_atom (fun _ => isPlain_of_mem_decimal) (decimal_ne_nil _) (hrest rfl),
      ofAtom_decimal hdigits]
    rfl
  | symbol _ hname =>
    obtain ⟨hne, hplain⟩ := isPlain_of_mem_name hname
    rw [foldlM_atom hplain hne (hrest rfl), ofAtom_name hname]
    rfl
  | text _ value =>
    rw [lexFrom_quotedText, List.foldlM_cons]
    simp only [Reading.take, String.ofList_toList]
    rfl
  | @list _ inner items hitems =>
    rw [List.cons_append, List.cons_append, List.append_assoc, List.singleton_append,
      lexFrom_opening, List.foldlM_cons]
    have hinner := hitems.foldlM_take (apart_closing rest) text (offset + 1) []
      ((.round, ⟨before, []⟩) :: outer)
    refine hinner.trans ?_
    rw [lexFrom_closing, List.foldlM_cons, List.append_nil]
    simp only [Reading.take, if_true, Level.push, List.foldl_nil, List.reverse_reverse]
    have hlength : offset + 1 + inner.length + 1 = offset + ('(' :: inner ++ [')']).length := by
      simp only [List.cons_append, List.length_cons, List.length_append, List.length_nil]
      omega
    rw [hlength]
    rfl

theorem SpellsAll.foldlM_take {place : Position} {cs : List Char} {items : List Sexp}
    (h : SpellsAll place cs items) {tail : List Char} (htail : Apart tail)
    (text : List Char) (offset : Nat) (before : List Sexp) (outer : List (Bracket × Level)) :
    (lexFrom offset .between (cs ++ tail)).foldlM (Reading.take text) ⟨⟨before, []⟩, outer⟩ =
      (lexFrom (offset + cs.length) .between tail).foldlM (Reading.take text)
        ⟨⟨(unplacedAll items).reverse ++ before, []⟩, outer⟩ := by
  cases h with
  | nil _ hgap =>
    rw [lexFrom_gap hgap]
    rfl
  | @cons _ gap cs rest item items hgap hitem hnext hrest =>
    rw [List.append_assoc, List.append_assoc, lexFrom_gap hgap,
      hitem.foldlM_take fun hatom => (hnext hatom).append htail, hrest.foldlM_take htail]
    rw [unplacedAll, List.reverse_cons, List.append_assoc, List.singleton_append]
    simp only [List.length_append, Nat.add_assoc]

end

/-- The forms of a text are found again, whatever its layout. -/
theorem readForms_of_spells {text : List Char} {items : List Sexp} {place : Position}
    (h : SpellsAll place (text ++ ['\n']) items) : readForms text = .ok (unplacedAll items) := by
  have hblank : advance 1 '\n' .between = ([], .between) := rfl
  have hwrap : wrap text = '(' :: '\n' :: (text ++ ['\n'] ++ [')']) := by
    rw [wrap, List.append_assoc]
    rfl
  have hinner := h.foldlM_take (apart_closing []) (wrap text) 2 [] [(.round, ⟨[], []⟩)]
  have hread : readItems (wrap text) = .ok [.list {} (unplacedAll items)] := by
    rw [readItems, lex]
    nth_rewrite 2 [hwrap]
    rw [lexFrom_opening, lexFrom_cons hblank, List.nil_append, List.foldlM_cons]
    refine (congrArg (· >>= Reading.close) hinner).trans ?_
    rw [lexFrom_closing, List.foldlM_cons, List.append_nil]
    simp only [Reading.take, if_true, Level.push, List.foldl_nil, List.reverse_reverse]
    rfl
  rw [readForms, hread]
  rfl

mutual

def starts : Sexp → List Position
  | .list start items => start :: startsAll items
  | _ => []

def startsAll : List Sexp → List Position
  | [] => []
  | item :: rest => starts item ++ startsAll rest

end

section Places

variable {place : Position} {cs gap rest : List Char}

theorem openingsFrom_cons (place : Position) (region : Region) (c : Char) (rest : List Char) :
    openingsFrom place region (c :: rest) =
      (if region.opens c then [place] else []) ++
        openingsFrom (place.after c) (region.after c) rest := by
  rw [openingsFrom]
  split <;> rfl

/-- A comment goes on to the end of its line. -/
theorem openingsFrom_comment (h : '\n' ∉ cs) (place : Position) (rest : List Char) :
    openingsFrom place .comment (cs ++ '\n' :: rest) =
      openingsFrom (place.past (cs ++ ['\n'])) .code rest := by
  induction cs generalizing place with
  | nil => rfl
  | cons c cs ih =>
    obtain ⟨hc, hcs⟩ := not_or.mp (List.mem_cons.not.mp h)
    rw [List.cons_append, openingsFrom_cons, Region.after, if_neg (Ne.symm hc), ih hcs]
    rfl

theorem openingsFrom_gap (h : Gap gap) (place : Position) (rest : List Char) :
    openingsFrom place .code (gap ++ rest) = openingsFrom (place.past gap) .code rest := by
  induction h generalizing place with
  | nil => rfl
  | @blank c more hc _ ih =>
    have hall : blanks.all (fun c => !Region.opens c .code && c != '"' && c != ';') = true := by
      decide
    have hregion := List.all_eq_true.mp hall c hc
    simp only [Bool.and_eq_true, bne_iff_ne, Bool.not_eq_true'] at hregion
    obtain ⟨⟨hopens, hquote⟩, hcomment⟩ := hregion
    rw [List.cons_append, openingsFrom_cons, hopens, Region.after, if_neg hquote, if_neg hcomment,
      ih]
    rfl
  | @comment cs more hcs _ ih =>
    rw [List.cons_append, List.cons_append, List.append_assoc, List.cons_append, openingsFrom_cons]
    have hcode : Region.after ';' .code = .comment := rfl
    rw [hcode, openingsFrom_comment hcs, ih, ← Position.past_append, List.append_assoc]
    rfl

theorem openingsFrom_atom (h : ∀ c ∈ cs, isPlain c = true) (place : Position) (rest : List Char) :
    openingsFrom place .code (cs ++ rest) = openingsFrom (place.past cs) .code rest := by
  induction cs generalizing place with
  | nil => rfl
  | cons c cs ih =>
    obtain ⟨_, hends, _, _⟩ := isPlain_spec (h c List.mem_cons_self)
    simp only [endsAtom, Bool.or_eq_false_iff, decide_eq_false_iff_not] at hends
    obtain ⟨⟨⟨⟨⟨⟨_, hopen⟩, _⟩, _⟩, _⟩, hquote⟩, hcomment⟩ := hends
    have hopens : Region.opens c .code = false := decide_eq_false hopen
    rw [List.cons_append, openingsFrom_cons, hopens, Region.after, if_neg hquote, if_neg hcomment,
      ih fun d hd => h d (List.mem_cons_of_mem _ hd)]
    rfl

/-- Both characters of an escape are part of the text. -/
theorem openingsFrom_text (value : List Char) (place : Position) (rest : List Char) :
    openingsFrom place .text (value.flatMap escapeQuote ++ '"' :: rest) =
      openingsFrom (place.past (value.flatMap escapeQuote ++ ['"'])) .code rest := by
  induction value generalizing place with
  | nil => rfl
  | cons c value ih =>
    rw [List.flatMap_cons, escapeQuote]
    by_cases hc : c = '\\' ∨ c = '"'
    · rw [if_pos hc, List.append_assoc, List.cons_append, List.singleton_append, openingsFrom_cons,
        openingsFrom_cons]
      exact ih _
    · obtain ⟨hescape, hquote⟩ := not_or.mp hc
      rw [if_neg hc, List.append_assoc, List.singleton_append, openingsFrom_cons, Region.after,
        if_neg hescape, if_neg hquote]
      exact ih _

mutual

/-- A spelling opens its lists where they say. -/
theorem Spells.openingsFrom {place : Position} {cs : List Char} {item : Sexp}
    (h : Spells place cs item) (rest : List Char) :
    Sexp.openingsFrom place .code (cs ++ rest) =
      starts item ++ Sexp.openingsFrom (place.past cs) .code rest := by
  cases h with
  | integer _ hdigits => exact openingsFrom_atom (fun _ => isPlain_of_mem_decimal) place rest
  | symbol _ hname => exact openingsFrom_atom (isPlain_of_mem_name hname).2 place rest
  | text _ value =>
    rw [quotedText, List.cons_append, List.cons_append, List.append_assoc, List.singleton_append,
      openingsFrom_cons]
    exact openingsFrom_text value.toList _ rest
  | @list _ inner items hitems =>
    rw [List.cons_append, List.cons_append, List.append_assoc, List.singleton_append,
      openingsFrom_cons]
    have hinner := hitems.openingsFrom (')' :: rest)
    refine (congrArg (place :: ·) hinner).trans ?_
    have hpast : place.past ('(' :: (inner ++ [')'])) =
        ((place.after '(').past inner).after ')' :=
      Position.past_append _ inner [')']
    rw [openingsFrom_cons, hpast]
    rfl

theorem SpellsAll.openingsFrom {place : Position} {cs : List Char} {items : List Sexp}
    (h : SpellsAll place cs items) (rest : List Char) :
    Sexp.openingsFrom place .code (cs ++ rest) =
      startsAll items ++ Sexp.openingsFrom (place.past cs) .code rest := by
  cases h with
  | nil _ hgap => exact openingsFrom_gap hgap place rest
  | @cons _ gap cs more item items hgap hitem _ hmore =>
    rw [List.append_assoc, List.append_assoc, openingsFrom_gap hgap, hitem.openingsFrom,
      hmore.openingsFrom, startsAll, List.append_assoc, Position.past_append, Position.past_append]

end

end Places

mutual

theorem locate_unplaced (item : Sexp) (places : List Position) :
    locate (starts item ++ places) (unplaced item) = (item, places) := by
  cases item with
  | list start items =>
    rw [starts, unplaced, locate, List.cons_append, List.tail_cons, locateAll_unplaced items places]
    rfl
  | _ => rfl

theorem locateAll_unplaced (items : List Sexp) (places : List Position) :
    locateAll (startsAll items ++ places) (unplacedAll items) = (items, places) := by
  cases items with
  | nil => rfl
  | cons item rest =>
    rw [startsAll, unplacedAll, locateAll, List.append_assoc, locate_unplaced item]
    simp only [locateAll_unplaced rest]

end

/-- A blank at the end opens nothing. -/
theorem openingsFrom_newline (place : Position) (region : Region) (cs : List Char) :
    openingsFrom place region (cs ++ ['\n']) = openingsFrom place region cs := by
  induction cs generalizing place region with
  | nil => cases region <;> rfl
  | cons c cs ih => rw [List.cons_append, openingsFrom_cons, openingsFrom_cons, ih]

end Sexp

namespace Reader

open Sexp

/-- A text in any layout is read as the forms that it lays out, every list at the
place of its opening parenthesis. -/
theorem forms_of_layout {text : String} {items : List Sexp} (h : Layout text items) :
    forms text = .ok items := by
  have hplaces : openings text.toList = startsAll items := by
    have hscan := h.openingsFrom []
    rw [List.append_nil, openingsFrom_newline] at hscan
    exact hscan.trans (List.append_nil _)
  rw [forms, readForms_of_spells h, hplaces]
  have hlocate := locateAll_unplaced items []
  rw [List.append_nil] at hlocate
  simp only [hlocate]

end Reader

end YulTaint
