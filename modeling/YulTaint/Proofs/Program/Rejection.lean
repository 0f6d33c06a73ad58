import Mathlib.Tactic
import YulTaint.Proofs.Program.Grammar
import YulTaint.Proofs.Sexp.Places

/-!
Why a text is rejected, and where. Every fault of the reader is about one item
that the grammar has no place for. If the item is wrong inside a form, the fault
is at a form around it, the innermost one or the switch that a clause belongs to;
if an item is no name or no form at all, the fault has no place. Forms are read in
the order in which they open, so all that opens before the form is accepted, and
the place of the form is that of its opening parenthesis.
-/

namespace YulTaint

open Sexp

/-- Whether a fault with the reason says where. -/
def Unreadable.isPlaced : Unreadable → Bool
  | .notAForm _ | .notAName .. => false
  | _ => true

namespace Reader

def statementHeads : List String :=
  ["function", "let", "set", "expr", "if", "switch", "for", "block", "break", "continue", "leave"]

def hasHead (head : String) : Sexp → Bool
  | .list _ (.symbol name :: _) => name = head
  | _ => false

def isLiteral : Sexp → Bool
  | .integer _ | .text _ => true
  | .symbol name => name = "true" || name = "false" || (hexSymbol? name).isSome
  | _ => false

/-- The reason applies to the item. -/
inductive Offends : Unreadable → Sexp → Prop
  | notAForm {found : Sexp} (hfound : ∀ start head args, found ≠ .list start (head :: args)) :
      Offends (.notAForm found) found
  | notAName (expected : String) {found : Sexp} (hfound : ∀ name, found ≠ .symbol name) :
      Offends (.notAName expected found) found
  | bracketed (items : List Sexp) : Offends (.notAnExpression (.bracketed items)) (.bracketed items)
  | quoted (item : Sexp) : Offends (.notAnExpression (.quoted item)) (.quoted item)
  | real (value : Decimal.Numeral) : Offends (.notAnExpression (.real value)) (.real value)
  | unknownStatement {start : Position} {head : String} {args : List Sexp}
      (hhead : head ∉ statementHeads) :
      Offends (.unknownStatement head) (.list start (.symbol head :: args))
  | functionWithoutName (start : Position) :
      Offends .functionWithoutName (.list start [.symbol "function"])
  | declarationShape {start : Position} {args : List Sexp}
      (hargs : args.length ≠ 1 ∧ args.length ≠ 2) :
      Offends .declarationShape (.list start (.symbol "let" :: args))
  | assignmentShape {start : Position} {args : List Sexp} (hargs : args.length ≠ 2) :
      Offends .assignmentShape (.list start (.symbol "set" :: args))
  | expressionShape {start : Position} {args : List Sexp} (hargs : args.length ≠ 1) :
      Offends .expressionShape (.list start (.symbol "expr" :: args))
  | branchWithoutCondition (start : Position) :
      Offends .branchWithoutCondition (.list start [.symbol "if"])
  | switchWithoutSelector (start : Position) :
      Offends .switchWithoutSelector (.list start [.symbol "switch"])
  | armWithoutValue (start : Position) : Offends .armWithoutValue (.list start [.symbol "case"])
  | armValueNotLiteral {value : Sexp} (hvalue : isLiteral value = false) :
      Offends .armValueNotLiteral value
  | secondDefault {start : Position} {selector : Sexp} {clauses : List Sexp}
      (hclauses : 2 ≤ clauses.countP (hasHead "default")) :
      Offends .secondDefault (.list start (.symbol "switch" :: selector :: clauses))
  | unexpectedClause {start : Position} {head : String} {items : List Sexp}
      (hhead : head ≠ "case" ∧ head ≠ "default") :
      Offends (.unexpectedClause head) (.list start (.symbol head :: items))
  | loopShape {start : Position} {args : List Sexp} (hargs : args.length < 3) :
      Offends .loopShape (.list start (.symbol "for" :: args))
  | loopClauses {start : Position} {init condition post : Sexp} {rest : List Sexp}
      (hclauses : (hasHead "init" init && hasHead "post" post) = false) :
      Offends .loopClauses (.list start (.symbol "for" :: init :: condition :: post :: rest))
  | operandsAfter {start : Position} {head : String} {args : List Sexp}
      (hhead : head ∈ ["break", "continue", "leave"]) (hargs : args ≠ []) :
      Offends (.operandsAfter head) (.list start (.symbol head :: args))

/-- The fault is about an item in the items. It has no place, the place around the
items, or the place of a form that is reached in them. -/
inductive Blames (file : String) (here : Option Loc) (items : List Sexp) : Fault → Prop
  | unplaced {reason : Unreadable} {form item : Sexp} (hform : form ∈ items) (hitem : Holds form item)
      (hreason : Offends reason item) (hplaced : reason.isPlaced = false) :
      Blames file here items reason.fault
  | around {reason : Unreadable} {form item : Sexp} {loc : Loc} (hhere : here = some loc)
      (hform : form ∈ items) (hitem : Holds form item) (hreason : Offends reason item)
      (hplaced : reason.isPlaced = true) : Blames file here items (reason.located loc)
  | inside {reason : Unreadable} {start : Position} {inner : List Sexp} {item : Sexp}
      (hform : Reaches items (.list start inner)) (hitem : Holds (.list start inner) item)
      (hreason : Offends reason item) (hplaced : reason.isPlaced = true) :
      Blames file here items (reason.located (start.loc file))

section Blames

variable {file : String} {here : Option Loc} {loc : Loc} {item : Sexp} {items rest : List Sexp}
  {start : Position} {fault : Fault} {reason : Unreadable}

theorem Blames.first (h : Blames file here [item] fault) : Blames file here (item :: rest) fault := by
  have hmem {form : Sexp} (hform : form ∈ [item]) : form ∈ item :: rest :=
    List.mem_cons.mpr (.inl (List.mem_singleton.mp hform))
  cases h with
  | unplaced hform hitem hreason hplaced => exact .unplaced (hmem hform) hitem hreason hplaced
  | around hhere hform hitem hreason hplaced =>
    exact .around hhere (hmem hform) hitem hreason hplaced
  | inside hform hitem hreason hplaced =>
    refine .inside ?_ hitem hreason hplaced
    cases hform with
    | here => exact .here _ rest
    | later _ hnone => cases hnone
    | inside hinner => exact .inside hinner

theorem Blames.later (hitem : isSimple item = true) (h : Blames file here rest fault) :
    Blames file here (item :: rest) fault := by
  cases h with
  | unplaced hform hitem hreason hplaced =>
    exact .unplaced (List.mem_cons_of_mem _ hform) hitem hreason hplaced
  | around hhere hform hitem hreason hplaced =>
    exact .around hhere (List.mem_cons_of_mem _ hform) hitem hreason hplaced
  | inside hform hholds hreason hplaced => exact .inside (.later hitem hform) hholds hreason hplaced

theorem Blames.after {front : List Sexp} (hfront : areSimple front = true)
    (h : Blames file here rest fault) : Blames file here (front ++ rest) fault := by
  induction front with
  | nil => exact h
  | cons item front ih =>
    rw [areSimple, Bool.and_eq_true] at hfront
    exact .later hfront.1 (ih hfront.2)

theorem Blames.within (h : Blames file here items fault) :
    Blames file here [.list start items] fault := by
  cases h with
  | unplaced hform hitem hreason hplaced =>
    exact .unplaced List.mem_cons_self (.within hform hitem) hreason hplaced
  | around hhere hform hitem hreason hplaced =>
    exact .around hhere List.mem_cons_self (.within hform hitem) hreason hplaced
  | inside hform hitem hreason hplaced => exact .inside (.inside hform) hitem hreason hplaced

/-- What is blamed at the place of a form is blamed inside the form. -/
theorem Blames.enter (h : Blames file (some (start.loc file)) items fault) :
    Blames file here [.list start items] fault := by
  cases h with
  | unplaced hform hitem hreason hplaced =>
    exact .unplaced List.mem_cons_self (.within hform hitem) hreason hplaced
  | around hhere hform hitem hreason hplaced =>
    cases hhere
    exact .inside (.here _ []) (.within hform hitem) hreason hplaced
  | inside hform hitem hreason hplaced => exact .inside (.inside hform) hitem hreason hplaced

theorem Blames.anywhere (h : Blames file none items fault) : Blames file here items fault := by
  cases h with
  | unplaced hform hitem hreason hplaced => exact .unplaced hform hitem hreason hplaced
  | around hhere => cases hhere
  | inside hform hitem hreason hplaced => exact .inside hform hitem hreason hplaced

/-- A fault without a place may be about any of the items. -/
theorem Blames.of_mem (h : Blames file here [item] fault) (hloc : fault.loc = none)
    (hitem : item ∈ items) : Blames file here items fault := by
  cases h with
  | unplaced hform hholds hreason hplaced =>
    rw [List.mem_singleton.mp hform] at hholds
    exact .unplaced hitem hholds hreason hplaced
  | around | inside => cases hloc

theorem Offends.blames_form (h : Offends reason (.list start items)) (hplaced : reason.isPlaced = true) :
    Blames file here [.list start items] (reason.located (start.loc file)) :=
  .inside (.here _ []) (.self _) h hplaced

theorem Offends.blames_around (h : Offends reason item) (hplaced : reason.isPlaced = true) :
    Blames file (some loc) [item] (reason.located loc) :=
  .around rfl List.mem_cons_self (.self item) h hplaced

theorem Offends.blames_unplaced (h : Offends reason item) (hplaced : reason.isPlaced = false) :
    Blames file here [item] reason.fault :=
  .unplaced List.mem_cons_self (.self item) h hplaced

end Blames

section Simple

variable {file : String}

theorem areSimple_symbols (names : List String) : areSimple (names.map .symbol) = true := by
  induction names with
  | nil => rfl
  | cons name names ih => simp [ih]

theorem Names.isSimple {item : Sexp} {names : List String} (h : Names item names) :
    Sexp.isSimple item = true := by
  cases h with
  | one => rfl
  | list _ names => exact areSimple_symbols names

mutual

theorem Expression.isSimple {here : Loc} {item : Sexp} {node : Node}
    (h : Expression file here item node) : Sexp.isSimple item = true := by
  cases h with
  | call hargs => exact hargs.areSimple
  | symbol | integer | text => rfl

theorem Expressions.areSimple {here : Loc} {items : List Sexp} {nodes : List Node}
    (h : Expressions file here items nodes) : Sexp.areSimple items = true := by
  cases h with
  | nil => rfl
  | cons hitem hitems => simp [hitem.isSimple, hitems.areSimple]

end

theorem isSimple_clause (start : Position) (head : String) {expected : String} {names : List Sexp}
    {read : List String} (h : symbolNames expected names = .ok read) :
    isSimple (.list start (.symbol head :: names)) = true := by
  simp [eq_map_of_symbolNames h, areSimple_symbols]

/-- One item of a signature: it is a clause, which is a list of names behind a head,
or the signature ends before it. -/
theorem signature_cons (found : Signature) (item : Sexp) (rest : List Sexp) :
    signature found (item :: rest) = .ok found ∨
      ∃ start head names, ∃ next : List String → Signature,
        item = .list start (.symbol head :: names) ∧ (head = "params" ∨ head = "returns") ∧
        (∀ read, (next read).clauses = found.clauses + 1) ∧
        signature found (item :: rest) =
          symbolNames "a parameter name" names >>= fun read => signature (next read) rest := by
  cases item with
  | list start items =>
    cases items with
    | nil => exact .inl rfl
    | cons first names =>
      cases first with
      | symbol head =>
        rw [signature]
        by_cases hparams : head = "params"
        · rw [if_pos hparams]
          exact .inr ⟨start, head, names, _, rfl, .inl hparams, fun _ => rfl, rfl⟩
        · by_cases hreturns : head = "returns"
          · rw [if_neg hparams, if_pos hreturns]
            exact .inr ⟨start, head, names, _, rfl, .inr hreturns, fun _ => rfl, rfl⟩
          · rw [if_neg hparams, if_neg hreturns]
            exact .inl rfl
      | _ => exact .inl rfl
  | _ => exact .inl rfl

/-- A clause of a signature: names behind a head. -/
inductive IsClause : Sexp → Prop
  | names (start : Position) {head : String} (hhead : head = "params" ∨ head = "returns")
      (names : List String) : IsClause (.list start (.symbol head :: names.map .symbol))

theorem exists_clauses_of_signature {found s : Signature} {items : List Sexp}
    (h : signature found items = .ok s) :
    ∃ count, s.clauses = found.clauses + count ∧ ∀ item ∈ items.take count, IsClause item := by
  induction items generalizing found with
  | nil =>
    cases h
    exact ⟨0, rfl, nofun⟩
  | cons item rest ih =>
    rcases signature_cons found item rest with
      hend | ⟨start, head, names, next, rfl, hhead, hnext, hstep⟩
    · rw [hend] at h
      cases h
      exact ⟨0, rfl, nofun⟩
    · rw [hstep] at h
      obtain ⟨read, hread, h⟩ := exists_of_bind_eq_ok h
      obtain ⟨count, hcount, hclauses⟩ := ih h
      rw [eq_map_of_symbolNames hread]
      refine ⟨count + 1, ?_, ?_⟩
      · rw [hcount, hnext]
        exact Nat.succ_add_eq_add_succ _ _
      · rw [List.take_succ_cons]
        exact List.forall_mem_cons.mpr ⟨.names start hhead read, hclauses⟩

/-- A signature takes up its clauses and nothing else. -/
theorem isClause_of_signature {s : Signature} {items : List Sexp}
    (h : signature {} items = .ok s) : ∀ item ∈ items.take s.clauses, IsClause item := by
  obtain ⟨count, hcount, hclauses⟩ := exists_clauses_of_signature h
  rwa [hcount, Nat.zero_add]

theorem areSimple_of_isClause {items : List Sexp} (h : ∀ item ∈ items, IsClause item) :
    areSimple items = true := by
  induction items with
  | nil => rfl
  | cons item rest ih =>
    obtain ⟨hitem, hrest⟩ := List.forall_mem_cons.mp h
    cases hitem
    simp [areSimple_symbols, ih hrest]

mutual

/-- A statement that is read has no brackets and no apostrophes. -/
theorem Statement.isSimple {item : Sexp} {node : Node} (h : Statement file item node) :
    Sexp.isSimple item = true := by
  cases h with
  | @function _ _ rest s _ hsignature hbody =>
    have hsize := sizeOf_drop_le rest s.clauses
    have hsplit := areSimple_append (rest.take s.clauses) (rest.drop s.clauses)
    rw [List.take_append_drop, areSimple_of_isClause (isClause_of_signature hsignature),
      hbody.areSimple] at hsplit
    simp [hsplit]
  | declaration hnames => simp [hnames.isSimple]
  | initialised hnames hvalue | assignment hnames hvalue => simp [hnames.isSimple, hvalue.isSimple]
  | expression hvalue => simp [hvalue.isSimple]
  | branch hcondition hbody => simp [hcondition.isSimple, hbody.areSimple]
  | switch hselector hclauses => simp [hselector.isSimple, hclauses.areSimple]
  | loop hinit hcondition hpost hbody =>
    simp [hinit.areSimple, hcondition.isSimple, hpost.areSimple, hbody.areSimple]
  | block hbody => exact hbody.areSimple
  | breakOut | continueOn | leave => rfl
termination_by sizeOf item

theorem Statements.areSimple {items : List Sexp} {nodes : List Node}
    (h : Statements file items nodes) : Sexp.areSimple items = true := by
  cases h with
  | nil => rfl
  | cons hitem hitems => simp [hitem.isSimple, hitems.areSimple]
termination_by sizeOf items

theorem Clauses.areSimple {here : Loc} {found fallback : Option Node} {clauses : List Sexp}
    {arms : List Node} (h : Clauses file here found clauses arms fallback) :
    Sexp.areSimple clauses = true := by
  cases h with
  | nil => rfl
  | arm hvalue hbody hrest => simp [hvalue.isSimple, hbody.areSimple, hrest.areSimple]
  | fallback hbody hrest => simp [hbody.areSimple, hrest.areSimple]
termination_by sizeOf clauses

end

end Simple

section Rejection

variable {file : String} {here : Option Loc} {fault : Fault} {expected : String} {item : Sexp}

theorem error_or_of_bind_eq_error {ε α β : Type} {x : Except ε α} {f : α → Except ε β} {e : ε}
    (h : x >>= f = .error e) : x = .error e ∨ ∃ a, x = .ok a ∧ f a = .error e := by
  cases x with
  | error e' =>
    cases h
    exact .inl rfl
  | ok a => exact .inr ⟨a, rfl, h⟩

theorem blames_of_symbolName (h : symbolName expected item = .error fault) :
    Blames file here [item] fault := by
  unfold symbolName at h
  split at h
  · cases h
  · rename_i hfound
    cases h
    exact (Offends.notAName expected hfound).blames_unplaced rfl

theorem loc_of_symbolName (h : symbolName expected item = .error fault) :
    fault.loc = none := by
  unfold symbolName at h
  split at h <;> cases h
  rfl

theorem blames_of_symbolNames {items : List Sexp} (h : symbolNames expected items = .error fault) :
    Blames file here items fault := by
  obtain ⟨item, hitem, herror⟩ := exists_of_mapM_eq_error h
  exact (blames_of_symbolName herror).of_mem (loc_of_symbolName herror) hitem

theorem blames_of_variableNames (h : variableNames item = .error fault) :
    Blames file here [item] fault := by
  unfold variableNames at h
  split at h
  · exact (blames_of_symbolNames h).within
  · exact blames_of_symbolNames h

theorem blames_of_formHead (h : formHead item = .error fault) :
    Blames file here [item] fault := by
  unfold formHead at h
  split at h
  · exact (blames_of_symbolName h).first.within
  · rename_i hfound
    cases h
    exact (Offends.notAForm fun start head args heq => hfound start head args heq).blames_unplaced rfl

theorem loc_of_formHead (h : formHead item = .error fault) : fault.loc = none := by
  unfold formHead at h
  split at h
  · exact loc_of_symbolName h
  · cases h
    rfl

mutual

/-- An expression that is refused has an item to blame. -/
theorem blames_of_expression (item : Sexp) {loc : Loc} (h : expression file loc item = .error fault) :
    Blames file (some loc) [item] fault := by
  cases item with
  | list start items =>
    cases items with
    | nil =>
      cases h
      exact (Offends.notAForm fun _ _ _ => by simp).blames_unplaced rfl
    | cons head args =>
      rw [expression] at h
      rcases error_or_of_bind_eq_error h with hname | ⟨name, hname, h⟩
      · exact (blames_of_symbolName hname).first.within
      · rcases error_or_of_bind_eq_error h with hargs | ⟨nodes, _, h⟩
        · rw [eq_symbol_of_symbolName hname]
          exact ((blames_of_expressions args hargs).later rfl).enter
        · cases h
  | symbol name => cases h
  | integer value => cases h
  | text value => cases h
  | bracketed items =>
    cases h
    exact (Offends.bracketed items).blames_around rfl
  | quoted item =>
    cases h
    exact (Offends.quoted item).blames_around rfl
  | real value =>
    cases h
    exact (Offends.real value).blames_around rfl

theorem blames_of_expressions (items : List Sexp) {loc : Loc}
    (h : expressions file loc items = .error fault) : Blames file (some loc) items fault := by
  cases items with
  | nil => cases h
  | cons item rest =>
    rw [expressions] at h
    rcases error_or_of_bind_eq_error h with hitem | ⟨node, hnode, h⟩
    · exact (blames_of_expression item hitem).first
    · rcases error_or_of_bind_eq_error h with hrest | ⟨nodes, _, h⟩
      · exact (blames_of_expressions rest hrest).later (expression_grammar item hnode).isSimple
      · cases h

end

theorem blames_of_signature {found : Signature} {items : List Sexp}
    (h : signature found items = .error fault) : Blames file here items fault := by
  induction items generalizing found with
  | nil => cases h
  | cons item rest ih =>
    rcases signature_cons found item rest with
      hend | ⟨start, head, names, next, rfl, _, _, hstep⟩
    · rw [hend] at h
      cases h
    · rw [hstep] at h
      rcases error_or_of_bind_eq_error h with hnames | ⟨read, hread, h⟩
      · exact ((blames_of_symbolNames hnames).later rfl).within.first
      · exact (ih h).later (isSimple_clause start head hread)

section Forms

variable {start : Position} {args : List Sexp} {head : String}

/-- What is wrong with an operand of a form is wrong in the form. -/
theorem Blames.operand (h : Blames file (some (start.loc file)) args fault) :
    Blames file here [.list start (.symbol head :: args)] fault :=
  (h.later rfl).enter

/-- A declaration and an assignment read their names, then their value. -/
theorem blames_of_namesAndValue {names value : Sexp} {loc : Loc} {make : List String → Node → Node}
    (h : (do return make (← variableNames names) (← expression file loc value)) = .error fault) :
    Blames file (some loc) [names, value] fault := by
  rcases error_or_of_bind_eq_error h with hnames | ⟨_, hnames, h⟩
  · exact (blames_of_variableNames hnames).first
  · rcases error_or_of_bind_eq_error h with hvalue | ⟨_, _, h⟩
    · exact (blames_of_expression value hvalue).later (names_of_variableNames hnames).isSimple
    · cases h

theorem blames_of_declaration (h : declaration file (start.loc file) args = .error fault) :
    Blames file here [.list start (.symbol "let" :: args)] fault := by
  match args, h with
  | [], h =>
    cases h
    exact (Offends.declarationShape (by simp)).blames_form rfl
  | [names], h =>
    rcases error_or_of_bind_eq_error h with hnames | ⟨_, _, h⟩
    · exact (blames_of_variableNames hnames).operand
    · cases h
  | [_, _], h => exact (blames_of_namesAndValue h).operand
  | _ :: _ :: _ :: _, h =>
    cases h
    exact (Offends.declarationShape (by simp)).blames_form rfl

theorem blames_of_assignment (h : assignment file (start.loc file) args = .error fault) :
    Blames file here [.list start (.symbol "set" :: args)] fault := by
  match args, h with
  | [], h | [_], h | _ :: _ :: _ :: _, h =>
    cases h
    exact (Offends.assignmentShape (by simp)).blames_form rfl
  | [_, _], h => exact (blames_of_namesAndValue h).operand

theorem blames_of_expressionStatement
    (h : expressionStatement file (start.loc file) args = .error fault) :
    Blames file here [.list start (.symbol "expr" :: args)] fault := by
  match args, h with
  | [], h | _ :: _ :: _, h =>
    cases h
    exact (Offends.expressionShape (by simp)).blames_form rfl
  | [value], h =>
    rcases error_or_of_bind_eq_error h with hvalue | ⟨_, _, h⟩
    · exact (blames_of_expression value hvalue).operand
    · cases h

theorem blames_of_bare {make : Loc → Node} (hhead : head ∈ ["break", "continue", "leave"])
    (h : bare head make (start.loc file) args = .error fault) :
    Blames file here [.list start (.symbol head :: args)] fault := by
  unfold bare at h
  split at h
  · cases h
  · rename_i hargs
    cases h
    exact (Offends.operandsAfter hhead fun hnil => hargs (by rw [hnil]; rfl)).blames_form rfl

/-- Only a literal is read as one. -/
theorem isLiteral_of_expression {loc : Loc} {node : Node}
    (h : Expression file loc item node) (hnode : ∀ value loc, node ≠ .literal value loc) :
    isLiteral item = false := by
  cases h with
  | call => rfl
  | symbol _ name =>
    unfold symbolNode at hnode
    split_ifs at hnode with htrue hfalse
    · exact absurd rfl (hnode _ _)
    · exact absurd rfl (hnode _ _)
    · split at hnode
      · exact absurd rfl (hnode _ _)
      · rename_i hhex
        simp [isLiteral, htrue, hfalse, hhex]
  | integer => exact absurd rfl (hnode _ _)
  | text => exact absurd rfl (hnode _ _)

theorem blames_of_armValue {loc : Loc} (h : armValue file loc item = .error fault) :
    Blames file (some loc) [item] fault := by
  rw [armValue] at h
  rcases error_or_of_bind_eq_error h with hitem | ⟨node, hnode, h⟩
  · exact blames_of_expression item hitem
  · split at h
    · cases h
    · rename_i hliteral
      cases h
      exact (Offends.armValueNotLiteral
        (isLiteral_of_expression (expression_grammar item hnode) hliteral)).blames_around rfl

theorem hasHead_of_formHead {name : String} (h : formHead item = .ok name)
    (head : String) : hasHead head item = decide (name = head) := by
  obtain ⟨start, items, rfl⟩ := exists_clause_of_formHead h
  rfl

theorem blames_of_loopHeads {init condition post : Sexp} {rest : List Sexp}
    (h : loopHeads (start.loc file) init post = .error fault) :
    Blames file here [.list start (.symbol "for" :: init :: condition :: post :: rest)] fault := by
  rw [loopHeads] at h
  rcases error_or_of_bind_eq_error h with hinit | ⟨first, hinit, h⟩
  · exact (blames_of_formHead hinit).first.operand
  · split at h
    · rcases error_or_of_bind_eq_error h with hpost | ⟨second, hpost, h⟩
      · -- the condition in between has not been read yet
        exact ((blames_of_formHead hpost).of_mem (loc_of_formHead hpost) (by simp)).operand
      · split at h
        · cases h
        · rename_i hhead
          cases h
          refine (Offends.loopClauses ?_).blames_form rfl
          rw [hasHead_of_formHead hpost, decide_eq_false hhead, Bool.and_false]
    · rename_i hhead
      cases h
      refine (Offends.loopClauses ?_).blames_form rfl
      rw [hasHead_of_formHead hinit, decide_eq_false hhead, Bool.false_and]

theorem isSimple_of_clauseBody {nodes : List Node}
    (h : clauseBody file item = .ok nodes) {items : List Sexp}
    (hitem : item = .list start (.symbol head :: items)) : isSimple item = true := by
  have hitems := (clauseBody_grammar item h hitem).areSimple
  rw [hitem]
  exact hitems

end Forms

mutual

/-- A statement that is refused has an item to blame, reached through what was read. -/
theorem blames_of_statement (form : Sexp) (h : statement file form = .error fault) :
    Blames file none [form] fault := by
  cases form with
  | list start items =>
    cases items with
    | nil =>
      cases h
      exact (Offends.notAForm fun _ _ _ => by simp).blames_unplaced rfl
    | cons first args =>
      cases first with
      | symbol head =>
        unfold statement at h
        split at h
        · cases args with
          | nil =>
            cases h
            exact (Offends.functionWithoutName start).blames_form rfl
          | cons name rest =>
            rcases error_or_of_bind_eq_error h with hname | ⟨_, hname, h⟩
            · exact (blames_of_symbolName hname).first.operand
            · rw [eq_symbol_of_symbolName hname]
              rcases error_or_of_bind_eq_error h with hsignature | ⟨s, hsignature, h⟩
              · exact ((blames_of_signature hsignature).later rfl).operand
              · rcases error_or_of_bind_eq_error h with hbody | ⟨_, _, h⟩
                · have hrest := (blames_of_statements s.clauses rest hbody).after
                    (areSimple_of_isClause (isClause_of_signature hsignature))
                  rw [List.take_append_drop] at hrest
                  exact (hrest.anywhere.later rfl).operand
                · cases h
        · exact blames_of_declaration h
        · exact blames_of_assignment h
        · exact blames_of_expressionStatement h
        · cases args with
          | nil =>
            cases h
            exact (Offends.branchWithoutCondition start).blames_form rfl
          | cons condition rest =>
            rcases error_or_of_bind_eq_error h with hnode | ⟨_, hnode, h⟩
            · exact (blames_of_expression condition hnode).first.operand
            · rcases error_or_of_bind_eq_error h with hbody | ⟨_, _, h⟩
              · exact ((blames_of_statements 0 rest hbody).anywhere.later
                  (expression_grammar _ hnode).isSimple).operand
              · cases h
        · cases args with
          | nil =>
            cases h
            exact (Offends.switchWithoutSelector start).blames_form rfl
          | cons selector clauses =>
            rcases error_or_of_bind_eq_error h with hnode | ⟨_, hnode, h⟩
            · exact (blames_of_expression selector hnode).first.operand
            · rcases error_or_of_bind_eq_error h with hclauses | ⟨_, _, h⟩
              · rcases blames_of_switchClauses clauses hclauses with
                  hblames | ⟨rfl, hdefaults⟩
                · exact (hblames.later (expression_grammar _ hnode).isSimple).operand
                · exact (Offends.secondDefault hdefaults).blames_form rfl
              · cases h
        · match args, h with
          | [], h | [_], h | [_, _], h =>
            cases h
            exact (Offends.loopShape (by simp)).blames_form rfl
          | init :: condition :: post :: rest, h =>
            rcases error_or_of_bind_eq_error h with hheads | ⟨_, hheads, h⟩
            · exact blames_of_loopHeads hheads
            · obtain ⟨⟨_, _, hinit⟩, ⟨_, _, hpost⟩⟩ := exists_clauses_of_loopHeads hheads
              rcases error_or_of_bind_eq_error h with hinits | ⟨_, hinits, h⟩
              · exact (blames_of_clauseBody init hinits hinit).first.anywhere.operand
              have hinit := isSimple_of_clauseBody hinits hinit
              rcases error_or_of_bind_eq_error h with hnode | ⟨_, hnode, h⟩
              · exact ((blames_of_expression condition hnode).first.later hinit).operand
              have hcondition := (expression_grammar _ hnode).isSimple
              rcases error_or_of_bind_eq_error h with hposts | ⟨_, hposts, h⟩
              · exact (((blames_of_clauseBody post hposts hpost).first.anywhere.later
                  hcondition).later hinit).operand
              have hpost := isSimple_of_clauseBody hposts hpost
              rcases error_or_of_bind_eq_error h with hbody | ⟨_, _, h⟩
              · exact ((((blames_of_statements 0 rest hbody).anywhere.later hpost).later
                  hcondition).later hinit).operand
              · cases h
        · rcases error_or_of_bind_eq_error h with hbody | ⟨_, _, h⟩
          · exact (blames_of_statements 0 args hbody).anywhere.operand
          · cases h
        · exact blames_of_bare (by simp) h
        · exact blames_of_bare (by simp) h
        · exact blames_of_bare (by simp) h
        · rename_i hfunction hlet hset hexpr hif hswitch hfor hblock hbreak hcontinue hleave
          cases h
          refine (Offends.unknownStatement ?_).blames_form rfl
          simpa [statementHeads] using ⟨hfunction, hlet, hset, hexpr, hif, hswitch, hfor, hblock,
            hbreak, hcontinue, hleave⟩
      | _ =>
        cases h
        exact ((Offends.notAName _ fun _ => by simp).blames_unplaced rfl).first.within
  | _ =>
    cases h
    exact (Offends.notAForm fun _ _ _ => by simp).blames_unplaced rfl

theorem blames_of_statements (skip : Nat) (items : List Sexp)
    (h : statements file skip items = .error fault) : Blames file none (items.drop skip) fault := by
  cases items with
  | nil =>
    rw [statements] at h
    cases h
  | cons item rest =>
    cases skip with
    | zero =>
      rw [statements] at h
      rcases error_or_of_bind_eq_error h with hitem | ⟨node, hnode, h⟩
      · exact (blames_of_statement item hitem).first
      · rcases error_or_of_bind_eq_error h with hrest | ⟨_, _, h⟩
        · exact (blames_of_statements 0 rest hrest).later (statement_grammar item hnode).isSimple
        · cases h
    | succ skip =>
      rw [statements] at h
      exact blames_of_statements skip rest h

theorem blames_of_clauseBody (item : Sexp) (h : clauseBody file item = .error fault)
    {start : Position} {head : String} {items : List Sexp}
    (hitem : item = .list start (.symbol head :: items)) : Blames file none [item] fault := by
  cases item with
  | list start' inner =>
    cases inner with
    | nil => cases hitem
    | cons first rest =>
      rw [clauseBody] at h
      have hrest := blames_of_statements 0 rest h
      cases hitem
      exact (hrest.later rfl).within
  | _ => cases hitem

/-- A second default is a fault of the whole switch. -/
theorem blames_of_switchClauses (clauses : List Sexp) {loc : Loc} {found : Option Node}
    (h : switchClauses file loc found clauses = .error fault) :
    Blames file (some loc) clauses fault ∨ fault = Unreadable.secondDefault.located loc ∧
      2 ≤ clauses.countP (hasHead "default") + found.toList.length := by
  cases clauses with
  | nil => cases h
  | cons clause rest =>
    cases clause with
    | list start items =>
      cases items with
      | nil =>
        cases h
        exact .inl ((Offends.notAForm fun _ _ _ => by simp).blames_unplaced rfl).first
      | cons first items =>
        cases first with
        | symbol head =>
          unfold switchClauses at h
          split at h
          · rename_i hcase
            subst hcase
            cases items with
            | nil =>
              cases h
              exact .inl ((Offends.armWithoutValue start).blames_around rfl).first
            | cons value items =>
              rcases error_or_of_bind_eq_error h with hvalue | ⟨_, hvalue, h⟩
              · exact .inl ((blames_of_armValue hvalue).first.later rfl).within.first
              obtain ⟨_, _, _, hliteral⟩ := exists_literal_of_armValue hvalue
              rcases error_or_of_bind_eq_error h with hbody | ⟨_, hbody, h⟩
              · exact .inl (((blames_of_statements 0 items hbody).anywhere.later
                  hliteral.isSimple).later rfl).within.first
              have hitems := (statements_grammar 0 items hbody).areSimple
              rcases error_or_of_bind_eq_error h with hrest | ⟨_, _, h⟩
              · rcases blames_of_switchClauses rest hrest with hblames | ⟨rfl, hdefaults⟩
                · exact .inl (hblames.later (by simp_all [hliteral.isSimple]))
                · refine .inr ⟨rfl, hdefaults.trans ?_⟩
                  rw [List.countP_cons]
                  omega
              · cases h
          · split at h
            · rename_i hdefault
              subst hdefault
              split at h
              · rename_i hsome
                cases h
                obtain ⟨body, rfl⟩ := Option.isSome_iff_exists.mp hsome
                refine .inr ⟨rfl, ?_⟩
                rw [List.countP_cons_of_pos rfl]
                exact Nat.add_le_add_right (Nat.le_add_left 1 _) 1
              · rename_i hnone
                obtain rfl : found = none := by simpa using hnone
                rcases error_or_of_bind_eq_error h with hbody | ⟨_, hbody, h⟩
                · exact .inl ((blames_of_statements 0 items hbody).anywhere.later rfl).within.first
                have hitems := (statements_grammar 0 items hbody).areSimple
                rcases blames_of_switchClauses rest h with hblames | ⟨rfl, hdefaults⟩
                · exact .inl (hblames.later hitems)
                · refine .inr ⟨rfl, ?_⟩
                  rw [List.countP_cons_of_pos rfl]
                  exact hdefaults
            · rename_i hcase hdefault
              cases h
              exact .inl ((Offends.unexpectedClause ⟨hcase, hdefault⟩).blames_around rfl).first
        | _ =>
          cases h
          exact .inl ((Offends.notAName _ fun _ => by simp).blames_unplaced rfl).first.within.first
    | _ =>
      cases h
      exact .inl ((Offends.notAForm fun _ _ _ => by simp).blames_unplaced rfl).first

end

end Rejection

/-- A text that consists of forms but is no program is rejected for an item in it
that the grammar has no place for. If a name or a form is expected and something
else is found, nothing is said about the place. Otherwise the fault is at a form
around the item, and if no escape misleads the scan for parentheses, that is where
the form opens. -/
theorem rejection_at_form {file text : String} {items : List Sexp} {fault : Fault}
    (hforms : forms text = .ok items) (hfault : Node.ofText? file text = .error fault) :
    ∃ reason item, fault.cause = .unreadable reason ∧ fault.code = .unreadable ∧
      Offends reason item ∧ (∃ form ∈ items, Holds form item) ∧
      (reason.isPlaced = false → fault.loc = none) ∧
      (reason.isPlaced = true → ∃ start inner, fault.loc = some (start.loc file) ∧
        (∃ form ∈ items, Holds form (.list start inner)) ∧ Holds (.list start inner) item ∧
        (isUnescaped text.toList = true → FormAt text.toList start (unplacedAll inner))) := by
  have hstatements : statements file 0 items = .error fault := by
    rw [Node.ofText?, hforms] at hfault
    change (statements file 0 items >>= _) = _ at hfault
    rcases error_or_of_bind_eq_error hfault with hread | ⟨_, _, h⟩
    · exact hread
    · cases h
  cases blames_of_statements 0 items hstatements with
  | unplaced hform hitem hreason hplaced =>
    refine ⟨_, _, rfl, rfl, hreason, ⟨_, hform, hitem⟩, fun _ => rfl, fun h => ?_⟩
    rw [hplaced] at h
    cases h
  | around hhere => cases hhere
  | inside hform hitem hreason hplaced =>
    obtain ⟨form, hmem, hholds⟩ := hform.exists_holds
    refine ⟨_, _, rfl, rfl, hreason, ⟨form, hmem, hholds.trans hitem⟩, fun h => ?_, fun _ => ?_⟩
    · rw [hplaced] at h
      cases h
    · exact ⟨_, _, rfl, ⟨form, hmem, hholds⟩, hitem, fun h => formAt_of_forms hforms h hform⟩

theorem exists_of_error {ε α : Type} {x : Except ε α} {p : ε → Bool}
    (h : (match x with | .ok _ => false | .error e => p e) = true) :
    ∃ e, x = .error e ∧ p e = true := by
  cases x with
  | ok a => cases h
  | error e => exact ⟨e, rfl, h⟩

/-- Parentheses in a text and in a comment come before the form that is no
statement. -/
def strayText : String :=
  "(let x \"(\") ; (\n(if x\n  (foo 1))"

theorem rejection_at_form_strayText :
    ∃ fault reason item inner, Node.ofText? "stray" strayText = .error fault ∧
      fault.cause = .unreadable reason ∧ fault.loc = some ⟨"stray", 3, 3⟩ ∧ Offends reason item ∧
      Holds (.list ⟨3, 3⟩ inner) item ∧ FormAt strayText.toList ⟨3, 3⟩ (unplacedAll inner) := by
  obtain ⟨items, hforms, _⟩ := @exists_of_any _ _ (forms strayText) (fun _ => true) (by decide +kernel)
  obtain ⟨fault, hfault, hloc⟩ := @exists_of_error _ _ (Node.ofText? "stray" strayText)
    (fun fault => decide (fault.loc = some ⟨"stray", 3, 3⟩)) (by decide +kernel)
  have hloc := of_decide_eq_true hloc
  obtain ⟨reason, item, hcause, _, hoffends, _, hunplaced, hplaced⟩ := rejection_at_form hforms hfault
  cases hreason : reason.isPlaced with
  | false =>
    rw [hunplaced hreason] at hloc
    cases hloc
  | true =>
    obtain ⟨start, inner, hstart, _, hitem, hform⟩ := hplaced hreason
    obtain rfl : start = ⟨3, 3⟩ := by
      rw [hloc] at hstart
      cases start
      cases hstart
      rfl
    exact ⟨fault, reason, item, inner, hfault, hcause, hloc, hoffends, hitem,
      hform (by decide +kernel)⟩

/-- A value that is no name is reported without a place, and an escaped parenthesis
before a form leaves the form at the wrong one. -/
theorem exists_misplaced_rejection :
    (∃ fault, Node.ofText? "stray" "(let 5 1)" = .error fault ∧ fault.loc = none) ∧
      (∃ fault, Node.ofText? "stray" "(expr (foo\\( 1))\n(let)" = .error fault ∧
        fault.loc = some ⟨"stray", 1, 12⟩) ∧
      FormAt "(expr (foo\\( 1))\n(let)".toList ⟨2, 1⟩ [.symbol "let"] := by
  refine ⟨?_, ?_, "(expr (foo\\( 1))\n".toList, "let".toList, [], ?_, ?_, ?_, ?_⟩
  · obtain ⟨fault, hfault, hloc⟩ := @exists_of_error _ _ (Node.ofText? "stray" "(let 5 1)")
      (fun fault => fault.loc.isNone) (by decide +kernel)
    exact ⟨fault, hfault, Option.isNone_iff_eq_none.mp hloc⟩
  · obtain ⟨fault, hfault, hloc⟩ := @exists_of_error _ _
      (Node.ofText? "stray" "(expr (foo\\( 1))\n(let)")
      (fun fault => decide (fault.loc = some ⟨"stray", 1, 12⟩)) (by decide +kernel)
    exact ⟨fault, hfault, of_decide_eq_true hloc⟩
  · decide
  · rfl
  · decide
  · rfl

end Reader

end YulTaint
