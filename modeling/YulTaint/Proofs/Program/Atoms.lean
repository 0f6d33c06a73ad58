import Mathlib.Tactic
import YulTaint.Proofs.Program.Grammar

/-!
What becomes of the atoms of a text. A statement's head and the head of a clause
are keywords; all other atoms are names and literals, and the tree mentions them
all, as often as the text has them. The one exception are the names of a
signature clause that a later clause of its kind replaces: they are lost.
-/

namespace YulTaint

/-- A name or a literal value. An integer is the same however it is written, and
so is a truth value and the word for it. -/
inductive Atom where
  | word (name : String)
  | integer (value : Int)
  | real (value : Decimal.Numeral)
  | text (value : String)
deriving DecidableEq, Repr

def Atom.ofName (name : String) : Atom :=
  match Reader.hexSymbol? name with
  | some value => .integer value
  | none => .word name

def Atom.ofLiteral : Literal → Atom
  | .truth true => .word "true"
  | .truth false => .word "false"
  | .integer value => .integer value
  | .text value => .text value

namespace Sexp

mutual

def atoms : Sexp → List Atom
  | .list _ items => atomsAll items
  | .bracketed items => atomsAll items
  | .quoted item => atoms item
  | .integer value => [.integer value]
  | .real value => [.real value]
  | .text value => [.text value]
  | .symbol name => [.ofName name]

def atomsAll : List Sexp → List Atom
  | [] => []
  | item :: rest => atoms item ++ atomsAll rest

end

/-- Whether an item of a statement or clause, counted behind the head, is an
expression or holds names; otherwise it is a statement or clause itself. -/
def isOperand (head : String) (index : Nat) : Bool :=
  if head ∈ ["params", "returns", "let", "set", "expr"] then true
  else if head ∈ ["function", "if", "switch", "case"] then index = 0
  else head = "for" && index = 1

mutual

/-- The atoms of a statement or clause without its keywords. -/
def contents : Sexp → List Atom
  | .list _ (.symbol head :: items) => contentsOf head 0 items
  | other => atoms other

def contentsOf (head : String) (index : Nat) : List Sexp → List Atom
  | [] => []
  | item :: rest =>
    (if isOperand head index then atoms item else contents item) ++
      contentsOf head (index + 1) rest

end

def contentsAll (forms : List Sexp) : List Atom :=
  forms.flatMap contents

def clauseKind? : Sexp → Option String
  | .list _ (.symbol head :: _) => if head = "params" ∨ head = "returns" then some head else none
  | _ => none

def clauseKinds : List Sexp → List String
  | [] => []
  | item :: rest =>
    match clauseKind? item with
    | some kind => kind :: clauseKinds rest
    | none => []

/-- The names in the signature clauses that a later clause of the same kind
replaces. -/
def replaced : List Sexp → List Atom
  | [] => []
  | item :: rest =>
    match clauseKind? item with
    | some kind => (if kind ∈ clauseKinds rest then contents item else []) ++ replaced rest
    | none => []

mutual

/-- The names that are lost anywhere in a statement or clause. -/
def lost : Sexp → List Atom
  | .list _ (.symbol head :: items) =>
    (if head = "function" then replaced items.tail else []) ++ lostOf head 0 items
  | _ => []

def lostOf (head : String) (index : Nat) : List Sexp → List Atom
  | [] => []
  | item :: rest =>
    (if isOperand head index then [] else lost item) ++ lostOf head (index + 1) rest

end

def lostAll (forms : List Sexp) : List Atom :=
  forms.flatMap lost

end Sexp

namespace Node

mutual

/-- The names and literal values in a tree. The name of a program is the file's. -/
def atoms : Node → List Atom
  | .literal value _ => [.ofLiteral value]
  | .identifier name _ => [.ofName name]
  | .call name args _ => .ofName name :: atomsAll args
  | .block statements _ => atomsAll statements
  | .declaration names value _ => names.map .ofName ++ atomsOption value
  | .assignment names value _ => names.map .ofName ++ atoms value
  | .expression value _ => atoms value
  | .branch condition body _ => atoms condition ++ atoms body
  | .switch selector arms fallback _ => atoms selector ++ atomsAll arms ++ atomsOption fallback
  | .caseArm value body _ => atoms value ++ atoms body
  | .loop init condition post body _ => atoms init ++ atoms condition ++ atoms post ++ atoms body
  | .function name params returns body _ =>
    .ofName name :: params.map .ofName ++ returns.map .ofName ++ atoms body
  | .breakOut _ | .continueOn _ | .leave _ => []
  | .program _ statements _ => atomsAll statements
  | .foreign _ => []

def atomsAll : List Node → List Atom
  | [] => []
  | node :: rest => atoms node ++ atomsAll rest

def atomsOption : Option Node → List Atom
  | none => []
  | some node => atoms node

end

end Node

namespace Reader

open Sexp (contents contentsOf contentsAll clauseKind? clauseKinds replaced lost lostOf lostAll
  isOperand)

variable {file : String} {here : Loc}

theorem atomsAll_symbols (names : List String) :
    Sexp.atomsAll (names.map .symbol) = names.map .ofName := by
  induction names with
  | nil => rfl
  | cons name rest ih =>
    rw [List.map_cons, Sexp.atomsAll, ih]
    rfl

theorem Names.atoms {item : Sexp} {names : List String} (h : Names item names) :
    item.atoms = names.map .ofName := by
  cases h with
  | one name => rfl
  | list start names => exact atomsAll_symbols names

theorem atoms_symbolNode (name : String) : (symbolNode here name).atoms = [.ofName name] := by
  unfold symbolNode
  split
  · rename_i htrue
    rw [htrue]
    rfl
  · split
    · rename_i hfalse
      rw [hfalse]
      rfl
    · cases hhex : hexSymbol? name with
      | some value => simp only [Node.atoms, Atom.ofName, Atom.ofLiteral, hhex]
      | none => simp only [Node.atoms]

mutual

theorem Expression.atoms {item : Sexp} {here : Loc} {node : Node}
    (h : Expression file here item node) : item.atoms = node.atoms := by
  cases h with
  | call hargs =>
    rw [Node.atoms, Sexp.atoms, Sexp.atomsAll, Sexp.atoms, hargs.atoms]
    rfl
  | symbol _ name => exact (atoms_symbolNode name).symm
  | integer _ value => rfl
  | text _ value => rfl

theorem Expressions.atoms {items : List Sexp} {here : Loc} {nodes : List Node}
    (h : Expressions file here items nodes) : Sexp.atomsAll items = Node.atomsAll nodes := by
  cases h with
  | nil => rfl
  | cons hitem hitems => rw [Node.atomsAll, Sexp.atomsAll, hitem.atoms, hitems.atoms]

end

/-- From some item on there are statements and clauses alone. -/
theorem contentsOf_eq {head : String} {index : Nat}
    (h : ∀ later, index ≤ later → isOperand head later = false) (items : List Sexp) :
    contentsOf head index items = contentsAll items ∧ lostOf head index items = lostAll items := by
  induction items generalizing index with
  | nil => exact ⟨rfl, rfl⟩
  | cons item rest ih =>
    obtain ⟨hcontents, hlost⟩ := ih fun later hlater => h later (Nat.le_of_succ_le hlater)
    have hitem := h index (Nat.le_refl _)
    rw [contentsOf, lostOf, hcontents, hlost, hitem]
    exact ⟨rfl, rfl⟩

/-- All items are names or expressions. -/
theorem contentsOf_operands {head : String} (h : ∀ index, isOperand head index = true)
    (index : Nat) (items : List Sexp) :
    contentsOf head index items = Sexp.atomsAll items ∧ lostOf head index items = [] := by
  induction items generalizing index with
  | nil => exact ⟨rfl, rfl⟩
  | cons item rest ih =>
    obtain ⟨hcontents, hlost⟩ := ih (index + 1)
    rw [contentsOf, lostOf, Sexp.atomsAll, hcontents, hlost, h index]
    exact ⟨rfl, rfl⟩

theorem contentsAll_append (a b : List Sexp) :
    contentsAll (a ++ b) = contentsAll a ++ contentsAll b :=
  List.flatMap_append

theorem lostAll_append (a b : List Sexp) : lostAll (a ++ b) = lostAll a ++ lostAll b :=
  List.flatMap_append

theorem contents_names {head : String} (h : head = "params" ∨ head = "returns") (start : Position)
    (names : List String) : contents (.list start (.symbol head :: names.map .symbol)) =
      names.map .ofName ∧ lost (.list start (.symbol head :: names.map .symbol)) = [] := by
  have hoperand : ∀ index, isOperand head index = true := by
    intro index
    rcases h with rfl | rfl <;> rfl
  have hfunction : head ≠ "function" := by
    rcases h with rfl | rfl <;> decide
  obtain ⟨hcontents, hlost⟩ := contentsOf_operands hoperand 0 (names.map .symbol)
  rw [contents, lost, hcontents, hlost, atomsAll_symbols, if_neg hfunction]
  exact ⟨rfl, rfl⟩

/-- What a clause in front of others adds to them. -/
theorem leading_clause {kind : String} (h : kind = "params" ∨ kind = "returns") (start : Position)
    (names : List String) (rest : List Sexp) (n : Nat) (x : Atom) :
    let items := .list start (.symbol kind :: names.map .symbol) :: rest
    clauseKinds items = kind :: clauseKinds rest ∧
      lostAll (items.take (n + 1)) = lostAll (rest.take n) ∧
      (contentsAll (items.take (n + 1))).count x =
        (names.map Atom.ofName).count x + (contentsAll (rest.take n)).count x ∧
      (replaced items).count x =
        (if kind ∈ clauseKinds rest then (names.map Atom.ofName).count x else 0) +
          (replaced rest).count x := by
  have hkind : clauseKind? (.list start (.symbol kind :: names.map .symbol)) = some kind := if_pos h
  obtain ⟨hcontents, hlost⟩ := contents_names h start names
  refine ⟨?_, ?_, ?_, ?_⟩
  · rw [clauseKinds, hkind]
  · rw [List.take_succ_cons, lostAll, List.flatMap_cons, hlost]
    rfl
  · rw [List.take_succ_cons, contentsAll, List.flatMap_cons, hcontents, List.count_append]
    rfl
  · rw [replaced, hkind, hcontents, List.count_append, apply_ite (List.count x), List.count_nil]

/-- Nothing is replaced where no clause comes first. -/
theorem replaced_eq_nil {rest : List Sexp}
    (h : ∀ start head names more, rest = .list start (.symbol head :: names) :: more →
      head ≠ "params" ∧ head ≠ "returns") : clauseKinds rest = [] ∧ replaced rest = [] := by
  cases rest with
  | nil => exact ⟨rfl, rfl⟩
  | cons item more =>
    have hkind : clauseKind? item = none := by
      unfold clauseKind?
      split
      · rename_i start head names
        exact if_neg (not_or.mpr (h start head names more rfl))
      · rfl
    rw [clauseKinds, replaced, hkind]
    exact ⟨rfl, rfl⟩

/-- The signature clauses: each name is in the signature or was replaced, and so
is each name found before them. -/
theorem signature_count {found s : Signature} {rest : List Sexp} (h : signature found rest = .ok s)
    (x : Atom) :
    ∃ n, s.clauses = found.clauses + n ∧ lostAll (rest.take n) = [] ∧
      (found.params.map Atom.ofName).count x + (found.returns.map Atom.ofName).count x +
          (contentsAll (rest.take n)).count x =
        (s.params.map Atom.ofName).count x + (s.returns.map Atom.ofName).count x +
          (replaced rest).count x +
          (if "params" ∈ clauseKinds rest then (found.params.map Atom.ofName).count x else 0) +
          (if "returns" ∈ clauseKinds rest then (found.returns.map Atom.ofName).count x else 0) := by
  fun_induction signature found rest with
  | case1 found start names rest ih =>
    obtain ⟨params, hparams, h⟩ := exists_of_bind_eq_ok h
    obtain ⟨n, hclauses, hlost, hcount⟩ := ih params h
    rw [eq_map_of_symbolNames hparams]
    obtain ⟨hkinds, hnone, hcontents, hreplaced⟩ :=
      leading_clause (.inl rfl) start params rest n x
    refine ⟨n + 1, by rw [hclauses, Nat.add_assoc, Nat.add_comm 1], hnone.trans hlost, ?_⟩
    rw [hkinds, hcontents, hreplaced]
    simp only [List.mem_cons, String.reduceEq, true_or, false_or, if_true] at hcount ⊢
    omega
  | case2 found start names rest _ ih =>
    obtain ⟨returns, hreturns, h⟩ := exists_of_bind_eq_ok h
    obtain ⟨n, hclauses, hlost, hcount⟩ := ih returns h
    rw [eq_map_of_symbolNames hreturns]
    obtain ⟨hkinds, hnone, hcontents, hreplaced⟩ :=
      leading_clause (.inr rfl) start returns rest n x
    refine ⟨n + 1, by rw [hclauses, Nat.add_assoc, Nat.add_comm 1], hnone.trans hlost, ?_⟩
    rw [hkinds, hcontents, hreplaced]
    simp only [List.mem_cons, String.reduceEq, true_or, false_or, if_true] at hcount ⊢
    omega
  | case3 found start head names rest hparams hreturns =>
    cases h
    have hnone : ∀ start' head' names' more,
        .list start (.symbol head :: names) :: rest =
          Sexp.list start' (.symbol head' :: names') :: more →
        head' ≠ "params" ∧ head' ≠ "returns" := by
      intro _ _ _ _ heq
      cases heq
      exact ⟨hparams, hreturns⟩
    obtain ⟨hkinds, hreplaced⟩ := replaced_eq_nil hnone
    refine ⟨0, rfl, rfl, ?_⟩
    rw [hkinds, hreplaced]
    simp [contentsAll]
  | case4 found rest hother =>
    cases h
    obtain ⟨hkinds, hreplaced⟩ := replaced_eq_nil fun start head names more heq =>
      (hother start head names more heq).elim
    refine ⟨0, rfl, rfl, ?_⟩
    rw [hkinds, hreplaced]
    simp [contentsAll]

/-- A form that starts with one expression or name; the rest are forms. -/
theorem contents_operandFirst (head : String) (h : head ∈ ["function", "if", "switch", "case"])
    (start : Position) (item : Sexp) (rest : List Sexp) :
    contents (.list start (.symbol head :: item :: rest)) = item.atoms ++ contentsAll rest ∧
      lost (.list start (.symbol head :: item :: rest)) =
        (if head = "function" then replaced rest else []) ++ lostAll rest := by
  have hoperand : isOperand head 0 = true ∧ ∀ later, 1 ≤ later → isOperand head later = false := by
    simp only [List.mem_cons, List.not_mem_nil, or_false] at h
    rcases h with rfl | rfl | rfl | rfl <;>
      exact ⟨rfl, fun later hlater => by simp [isOperand]; omega⟩
  obtain ⟨hcontents, hlost⟩ := contentsOf_eq hoperand.2 rest
  rw [contents, lost, contentsOf, lostOf, hoperand.1, hcontents, hlost]
  exact ⟨rfl, rfl⟩

/-- A form whose items are all expressions or names. -/
theorem contents_operands (head : String) (h : head ∈ ["let", "set", "expr"]) (start : Position)
    (items : List Sexp) : contents (.list start (.symbol head :: items)) = Sexp.atomsAll items ∧
      lost (.list start (.symbol head :: items)) = [] := by
  have hoperand : ∀ index, isOperand head index = true := by
    intro index
    simp only [List.mem_cons, List.not_mem_nil, or_false] at h
    rcases h with rfl | rfl | rfl <;> rfl
  have hfunction : head ≠ "function" := by
    rintro rfl
    simp at h
  obtain ⟨hcontents, hlost⟩ := contentsOf_operands hoperand 0 items
  rw [contents, lost, hcontents, hlost, if_neg hfunction]
  exact ⟨rfl, rfl⟩

/-- A form whose items are all statements. -/
theorem contents_forms (head : String) (h : head ∈ ["block", "init", "post", "default"])
    (start : Position) (items : List Sexp) :
    contents (.list start (.symbol head :: items)) = contentsAll items ∧
      lost (.list start (.symbol head :: items)) = lostAll items := by
  have hform : ∀ later, 0 ≤ later → isOperand head later = false := by
    intro later _
    simp only [List.mem_cons, List.not_mem_nil, or_false] at h
    rcases h with rfl | rfl | rfl | rfl <;> rfl
  have hfunction : head ≠ "function" := by
    rintro rfl
    simp at h
  obtain ⟨hcontents, hlost⟩ := contentsOf_eq hform items
  rw [contents, lost, hcontents, hlost, if_neg hfunction]
  exact ⟨rfl, rfl⟩

theorem contents_loop (start : Position) (init condition post : Sexp) (items : List Sexp) :
    contents (.list start (.symbol "for" :: init :: condition :: post :: items)) =
        contents init ++ condition.atoms ++ contents post ++ contentsAll items ∧
      lost (.list start (.symbol "for" :: init :: condition :: post :: items)) =
        lost init ++ lost post ++ lostAll items := by
  have hform : ∀ later, 3 ≤ later → isOperand "for" later = false := by
    intro later hlater
    simp [isOperand]
    omega
  obtain ⟨hcontents, hlost⟩ := contentsOf_eq hform items
  constructor
  · simp only [contents, contentsOf, hcontents, List.append_assoc]
    rfl
  · simp only [lost, lostOf, hlost, List.append_assoc]
    rfl

mutual

/-- No atom of a statement is lost but those of replaced clauses. -/
theorem Statement.count {form : Sexp} {node : Node} (h : Statement file form node) (x : Atom) :
    (contents form).count x = node.atoms.count x + (lost form).count x := by
  cases h with
  | @function start name rest s body hsignature hbody =>
    obtain ⟨hcontents, hlost⟩ :=
      contents_operandFirst "function" (by simp) start (.symbol name) rest
    obtain ⟨n, hclauses, hnone, hnames⟩ := signature_count hsignature x
    have hsize := sizeOf_drop_le rest s.clauses
    have hcount := hbody.count x
    have hwritten : contentsAll rest = contentsAll (rest.take n) ++ contentsAll (rest.drop n) := by
      rw [← contentsAll_append, List.take_append_drop]
    have hdropped : lostAll rest = lostAll (rest.drop n) := by
      rw [← List.nil_append (lostAll (rest.drop n)), ← hnone, ← lostAll_append,
        List.take_append_drop]
    rw [hclauses, Nat.zero_add] at hcount
    rw [hcontents, hlost, hwritten, hdropped, if_pos rfl, Node.atoms, Node.atoms, Sexp.atoms]
    simp only [List.count_append, List.cons_append, List.count_cons, List.nil_append, List.map_nil,
      List.count_nil, ite_self, Nat.add_zero] at hnames ⊢
    omega
  | @declaration start item names hnames =>
    obtain ⟨hcontents, hlost⟩ := contents_operands "let" (by simp) start [item]
    rw [hcontents, hlost, Sexp.atomsAll, Sexp.atomsAll, hnames.atoms]
    rfl
  | @initialised start item value names node hnames hvalue =>
    obtain ⟨hcontents, hlost⟩ := contents_operands "let" (by simp) start [item, value]
    rw [hcontents, hlost, Sexp.atomsAll, Sexp.atomsAll, Sexp.atomsAll, hnames.atoms, hvalue.atoms,
      Node.atoms, Node.atomsOption, List.append_nil]
    rfl
  | @assignment start item value names node hnames hvalue =>
    obtain ⟨hcontents, hlost⟩ := contents_operands "set" (by simp) start [item, value]
    rw [hcontents, hlost, Sexp.atomsAll, Sexp.atomsAll, Sexp.atomsAll, hnames.atoms, hvalue.atoms,
      Node.atoms, List.append_nil]
    rfl
  | @expression start value node hvalue =>
    obtain ⟨hcontents, hlost⟩ := contents_operands "expr" (by simp) start [value]
    rw [hcontents, hlost, Sexp.atomsAll, Sexp.atomsAll, hvalue.atoms, Node.atoms, List.append_nil]
    rfl
  | @branch start condition node items body hcondition hbody =>
    obtain ⟨hcontents, hlost⟩ :=
      contents_operandFirst "if" (by simp) start condition items
    have hcount := hbody.count x
    rw [hcontents, hlost, if_neg (by decide), hcondition.atoms, Node.atoms, Node.atoms]
    simp only [List.count_append, List.count_nil]
    omega
  | @switch start selector node clauses arms fallback hselector hclauses =>
    obtain ⟨hcontents, hlost⟩ :=
      contents_operandFirst "switch" (by simp) start selector clauses
    have hcount := hclauses.count x
    rw [hcontents, hlost, if_neg (by decide), hselector.atoms, Node.atoms]
    simp only [Node.atomsOption, List.count_append, List.count_nil] at hcount ⊢
    omega
  | @loop start initStart postStart condition node inits posts items init post body hinit
      hcondition hpost hbody =>
      obtain ⟨hcontents, hlost⟩ := contents_loop start (.list initStart (.symbol "init" :: inits))
        condition (.list postStart (.symbol "post" :: posts)) items
      obtain ⟨hinits, hinitsLost⟩ := contents_forms "init" (by simp) initStart inits
      obtain ⟨hposts, hpostsLost⟩ := contents_forms "post" (by simp) postStart posts
      have hinitCount := hinit.count x
      have hpostCount := hpost.count x
      have hbodyCount := hbody.count x
      rw [hcontents, hlost, hinits, hinitsLost, hposts, hpostsLost, hcondition.atoms, Node.atoms,
        Node.atoms, Node.atoms, Node.atoms]
      simp only [List.count_append]
      omega
  | @block start items body hbody =>
    obtain ⟨hcontents, hlost⟩ := contents_forms "block" (by simp) start items
    rw [hcontents, hlost]
    exact hbody.count x
  | breakOut start => rfl
  | continueOn start => rfl
  | leave start => rfl
termination_by sizeOf form

theorem Statements.count {items : List Sexp} {nodes : List Node} (h : Statements file items nodes)
    (x : Atom) :
    (contentsAll items).count x = (Node.atomsAll nodes).count x + (lostAll items).count x := by
  cases h with
  | nil => rfl
  | cons hitem hitems =>
    have hfirst := hitem.count x
    have hrest := hitems.count x
    rw [contentsAll, lostAll] at hrest ⊢
    rw [List.flatMap_cons, List.flatMap_cons, Node.atomsAll, List.count_append, List.count_append,
      List.count_append]
    omega
termination_by sizeOf items

theorem Clauses.count {here : Loc} {found fallback : Option Node} {clauses : List Sexp}
    {arms : List Node} (h : Clauses file here found clauses arms fallback) (x : Atom) :
    (Node.atomsOption found).count x + (contentsAll clauses).count x =
      (Node.atomsAll arms).count x + (Node.atomsOption fallback).count x +
        (lostAll clauses).count x := by
  cases h with
  | nil =>
    simp [contentsAll, lostAll, Node.atomsAll]
  | @arm _ _ _ start value literal loc items rest body arms hvalue hbody hrest =>
    obtain ⟨hcontents, hlost⟩ := contents_operandFirst "case" (by simp) start value items
    have hbodyCount := hbody.count x
    have hrestCount := hrest.count x
    rw [contentsAll, lostAll] at hrestCount ⊢
    rw [List.flatMap_cons, List.flatMap_cons, hcontents, hlost, hvalue.atoms, Node.atomsAll,
      Node.atoms, Node.atoms, Node.atoms, Node.atoms, if_neg (by decide)]
    simp only [List.count_append, List.count_nil]
    omega
  | @fallback _ _ start items rest body arms hbody hrest =>
    obtain ⟨hcontents, hlost⟩ := contents_forms "default" (by simp) start items
    have hbodyCount := hbody.count x
    have hrestCount := hrest.count x
    rw [contentsAll, lostAll] at hrestCount ⊢
    rw [List.flatMap_cons, List.flatMap_cons, hcontents, hlost]
    simp only [Node.atomsOption, Node.atoms, List.count_append, List.count_nil] at hrestCount ⊢
    omega
termination_by sizeOf clauses

end

/-- The atoms of an accepted text, its keywords apart, are the names and literals
of the program and those that replaced signature clauses lose. -/
theorem atoms_of_text {text : String} {program : Node} (h : Node.ofText? file text = .ok program) :
    ∃ items, forms text = .ok items ∧
      (contentsAll items).Perm (program.atoms ++ lostAll items) := by
  rw [Node.ofText?] at h
  obtain ⟨items, hitems, h⟩ := exists_of_bind_eq_ok h
  obtain ⟨nodes, hnodes, h⟩ := exists_of_bind_eq_ok h
  cases h
  refine ⟨items, hitems, List.perm_iff_count.mpr fun x => ?_⟩
  rw [Node.atoms, List.count_append]
  exact (statements_grammar 0 items hnodes).count x

/-- A function with a replaced clause, and a branch that calls it. -/
def crowdedText : String :=
  "(function f (params a) (params b) (let x 0x10)) (if true (set (x b) (f \"s\")))"

theorem atoms_of_text_crowdedText : ∃ program items,
    Node.ofText? "<string>" crowdedText = .ok program ∧ forms crowdedText = .ok items ∧
      (contentsAll items).Perm (program.atoms ++ [.word "a"]) := by
  have hprogram : (Node.ofText? "<string>" crowdedText).toOption.any (fun _ => true) = true := by
    decide +kernel
  have hlost : (forms crowdedText).toOption.any
      (fun items => decide (lostAll items = [.word "a"])) = true := by
    decide +kernel
  obtain ⟨program, hread, _⟩ := exists_of_any hprogram
  obtain ⟨items, hitems, hdropped⟩ := exists_of_any hlost
  obtain ⟨items', hitems', hperm⟩ := atoms_of_text hread
  cases hitems.symm.trans hitems'
  exact ⟨program, items, hread, hitems, of_decide_eq_true hdropped ▸ hperm⟩

/-- A function with two clauses for its parameters keeps the second one alone. -/
theorem exists_lost : ∃ program items,
    Node.ofText? "<string>" "(function f (params a) (params b))" = .ok program ∧
      forms "(function f (params a) (params b))" = .ok items ∧
      ¬ (contentsAll items).Perm program.atoms := by
  have hprogram : (Node.ofText? "<string>" "(function f (params a) (params b))").toOption.any
      (fun program => decide (program.atoms = [.word "f", .word "b"])) = true := by
    decide +kernel
  have hcontents : (forms "(function f (params a) (params b))").toOption.any
      (fun items => decide (contentsAll items = [.word "f", .word "a", .word "b"])) = true := by
    decide +kernel
  obtain ⟨program, hread, hkept⟩ := exists_of_any hprogram
  obtain ⟨items, hitems, hwritten⟩ := exists_of_any hcontents
  refine ⟨program, items, hread, hitems, ?_⟩
  rw [of_decide_eq_true hkept, of_decide_eq_true hwritten]
  decide

end Reader

end YulTaint
