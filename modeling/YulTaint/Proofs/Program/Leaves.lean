import Mathlib.Tactic
import YulTaint.Proofs.Program.Atoms
import YulTaint.Proofs.Program.Rejection

/-!
Where the literals and identifiers of a program are said to be. An atom has no place
of its own, so the leaf that it becomes takes the place of the innermost form around
it. The one exception is the value of a case: it is read before its clause is
entered, and takes the place of the switch.
-/

namespace YulTaint

namespace Sexp

/-- An atom, with the places of the forms around it, innermost first. -/
structure Spot where
  atom : Sexp
  around : List Position

def spotsOf (place : Nat → Position) (around : List Position) : List Lexeme → List Spot
  | [] => []
  | lexeme :: rest =>
    match lexeme.token with
    | .opening .round => spotsOf place (place lexeme.offset :: around) rest
    | .closing .round => spotsOf place around.tail rest
    | .atom value => ⟨.ofAtom value, around⟩ :: spotsOf place around rest
    | .text value => ⟨.text (String.ofList value), around⟩ :: spotsOf place around rest
    | _ => spotsOf place around rest

/-- The atoms of a text in order. A line break ends the last one. -/
def spots (text : List Char) : List Spot :=
  spotsOf (placeIn text) [] (lexFrom 2 .between (text ++ ['\n', ')']))

mutual

def spotsIn (around : List Position) : Sexp → List Spot
  | .list start items => spotsInAll (start :: around) items
  | .bracketed items => spotsInAll around items
  | .quoted item => spotsIn around item
  | atom => [⟨atom, around⟩]

def spotsInAll (around : List Position) : List Sexp → List Spot
  | [] => []
  | item :: rest => spotsIn around item ++ spotsInAll around rest

end

theorem spotsIn_ofAtom (around : List Position) (value : List Char) :
    spotsIn around (ofAtom value) = [⟨ofAtom value, around⟩] := by
  unfold ofAtom
  split
  · rfl
  · split <;> rfl

variable {place : Nat → Position}

mutual

/-- The lexemes of an item have its atoms, and all that opens among them is closed. -/
theorem Parses.spotsOf_append {lexemes : List Lexeme} {item : Sexp}
    (h : Parses place lexemes item) (hsimple : isSimple item = true) (around : List Position)
    (more : List Lexeme) :
    spotsOf place around (lexemes ++ more) = spotsIn around item ++ spotsOf place around more := by
  cases h with
  | atom _ value offset =>
    rw [spotsIn_ofAtom]
    rfl
  | text _ value offset => rfl
  | list offset closed hitems =>
    rw [List.cons_append, List.append_assoc]
    exact hitems.spotsOf_append hsimple (place offset :: around) _
  | bracketed | quoted => cases hsimple
termination_by sizeOf item

theorem ParsesAll.spotsOf_append {lexemes : List Lexeme} {items : List Sexp}
    (h : ParsesAll place lexemes items) (hsimple : areSimple items = true)
    (around : List Position) (more : List Lexeme) :
    spotsOf place around (lexemes ++ more) =
      spotsInAll around items ++ spotsOf place around more := by
  cases h with
  | nil => rfl
  | cons hitem hitems =>
    rw [areSimple_cons, Bool.and_eq_true] at hsimple
    rw [List.append_assoc, hitem.spotsOf_append hsimple.1, hitems.spotsOf_append hsimple.2,
      spotsInAll, List.append_assoc]
termination_by sizeOf items

end

/-- An atom that becomes a literal or an identifier. -/
structure Origin extends Spot where
  /-- The atom stands behind the head of a case. -/
  isArmValue : Bool

mutual

/-- The atoms of an expression but for the names of calls. -/
def operandOrigins (isArmValue : Bool) (around : List Position) : Sexp → List Origin
  | .list start (_ :: args) => operandOriginsAll (start :: around) args
  | .list _ [] | .bracketed _ | .quoted _ => []
  | atom => [⟨⟨atom, around⟩, isArmValue⟩]

def operandOriginsAll (around : List Position) : List Sexp → List Origin
  | [] => []
  | item :: rest => operandOrigins false around item ++ operandOriginsAll around rest

end

mutual

/-- The atoms in the expressions of a statement or clause. They are in order, but the
default of a switch comes last. -/
def origins (around : List Position) : Sexp → List Origin
  | .list start (.symbol head :: items) =>
    match head, items with
    | "let", [_, value] | "set", [_, value] | "expr", [value] =>
      operandOrigins false (start :: around) value
    | "if", condition :: rest =>
      operandOrigins false (start :: around) condition ++ originsAll (start :: around) rest
    | "switch", selector :: clauses =>
      operandOrigins false (start :: around) selector ++
        clauseOrigins "case" (start :: around) clauses ++
        clauseOrigins "default" (start :: around) clauses
    | "case", value :: rest =>
      operandOrigins true (start :: around) value ++ originsAll (start :: around) rest
    | "for", init :: condition :: post :: rest =>
      origins (start :: around) init ++ operandOrigins false (start :: around) condition ++
        origins (start :: around) post ++ originsAll (start :: around) rest
    | "function", _ :: rest | "block", rest | "init", rest | "post", rest | "default", rest =>
      originsAll (start :: around) rest
    | _, _ => []
  | _ => []

def originsAll (around : List Position) : List Sexp → List Origin
  | [] => []
  | item :: rest => origins around item ++ originsAll around rest

def clauseOrigins (kind : String) (around : List Position) : List Sexp → List Origin
  | [] => []
  | clause :: rest =>
    (if Reader.hasHead kind clause then origins around clause else []) ++
      clauseOrigins kind around rest

end

end Sexp

namespace Node

mutual

def leaves : Node → List Node
  | .literal value loc => [.literal value loc]
  | .identifier name loc => [.identifier name loc]
  | .call _ args _ => leavesAll args
  | .block statements _ | .program _ statements _ => leavesAll statements
  | .declaration _ value _ => leavesOption value
  | .assignment _ value _ | .expression value _ => leaves value
  | .branch condition body _ => leaves condition ++ leaves body
  | .switch selector arms fallback _ => leaves selector ++ leavesAll arms ++ leavesOption fallback
  | .caseArm value body _ => leaves value ++ leaves body
  | .loop init condition post body _ =>
    leaves init ++ leaves condition ++ leaves post ++ leaves body
  | .function _ _ _ body _ => leaves body
  | _ => []

def leavesAll : List Node → List Node
  | [] => []
  | node :: rest => leaves node ++ leavesAll rest

def leavesOption : Option Node → List Node
  | none => []
  | some node => leaves node

end

end Node

namespace Reader

open Sexp

/-- The leaf is read from an atom of the text, and is said to be where the innermost form
around the atom begins, or the next one if the leaf is the value of a case. -/
def Located (file : String) (spots : List Spot) (leaf : Node) (origin : Origin) : Prop :=
  origin.toSpot ∈ spots ∧ leaf.atoms = origin.atom.atoms ∧
    ∃ start, origin.around[if origin.isArmValue then 1 else 0]? = some start ∧
      leaf.loc? = some (start.loc file)

section Located

variable {file : String} {spots : List Spot} {start : Position} {around outer : List Position}
  {items : List Sexp}

theorem leaves_symbolNode (here : Loc) (name : String) :
    (symbolNode here name).leaves = [symbolNode here name] ∧
      (symbolNode here name).loc? = some here := by
  unfold symbolNode
  split
  · exact ⟨rfl, rfl⟩
  · split
    · exact ⟨rfl, rfl⟩
    · cases hexSymbol? name <;> exact ⟨rfl, rfl⟩

/-- An atom becomes one leaf, which takes the place that it is read at. -/
theorem Expression.located_atom {item : Sexp} {node : Node} {isArmValue : Bool}
    (h : Expression file (start.loc file) item node)
    (hitem : ∀ start items, item ≠ .list start items) (hown : spotsIn around item ⊆ spots)
    (hstart : around[if isArmValue then 1 else 0]? = some start) :
    List.Forall₂ (Located file spots) node.leaves (operandOrigins isArmValue around item) := by
  have hatoms := h.atoms.symm
  cases h with
  | call => exact absurd rfl (hitem _ _)
  | symbol _ name =>
    obtain ⟨hleaves, hloc⟩ := leaves_symbolNode (start.loc file) name
    rw [hleaves]
    exact .cons ⟨hown List.mem_cons_self, hatoms, start, hstart, hloc⟩ .nil
  | integer | text => exact .cons ⟨hown List.mem_cons_self, hatoms, start, hstart, rfl⟩ .nil

/-- The atoms of an item and of the items after it. -/
theorem subset_of_cons {item : Sexp} (h : spotsInAll around (item :: items) ⊆ spots) :
    spotsIn around item ⊆ spots ∧ spotsInAll around items ⊆ spots :=
  List.append_subset.mp h

mutual

theorem Expression.located {item : Sexp} {node : Node} {start : Position} {outer : List Position}
    (h : Expression file (start.loc file) item node)
    (hown : spotsIn (start :: outer) item ⊆ spots) :
    List.Forall₂ (Located file spots) node.leaves
      (operandOrigins false (start :: outer) item) := by
  cases item with
  | list _ items =>
    cases h with
    | call hargs => exact hargs.located (subset_of_cons hown).2
  | _ => exact h.located_atom (fun _ _ => Sexp.noConfusion) hown rfl

theorem Expressions.located {items : List Sexp} {nodes : List Node} {start : Position}
    {outer : List Position} (h : Expressions file (start.loc file) items nodes)
    (hown : spotsInAll (start :: outer) items ⊆ spots) :
    List.Forall₂ (Located file spots) (Node.leavesAll nodes)
      (operandOriginsAll (start :: outer) items) := by
  cases h with
  | nil => exact .nil
  | cons hitem hitems =>
    obtain ⟨hfirst, hrest⟩ := subset_of_cons hown
    exact List.rel_append (hitem.located hfirst) (hitems.located hrest)

end

/-- The value of a case is read at the place of the switch. -/
theorem Expression.located_armValue {value : Sexp} {literal : Literal} {loc : Loc}
    {switch : Position} (h : Expression file (switch.loc file) value (.literal literal loc))
    (hown : spotsIn (start :: switch :: outer) value ⊆ spots) :
    List.Forall₂ (Located file spots) (Node.leaves (.literal literal loc))
      (operandOrigins true (start :: switch :: outer) value) := by
  refine h.located_atom ?_ hown rfl
  rintro _ _ rfl
  cases h

/-- No name in a signature clause becomes a leaf. -/
theorem originsAll_of_isClause {items : List Sexp} (h : ∀ item ∈ items, IsClause item)
    (around : List Position) (rest : List Sexp) :
    originsAll around (items ++ rest) = originsAll around rest := by
  induction items with
  | nil => rfl
  | cons item items ih =>
    obtain ⟨hitem, hitems⟩ := List.forall_mem_cons.mp h
    obtain ⟨start, rfl | rfl, names⟩ := hitem <;> exact ih hitems

theorem spotsInAll_drop (around : List Position) (items : List Sexp) (n : Nat) :
    spotsInAll around (items.drop n) ⊆ spotsInAll around items := by
  induction items generalizing n with
  | nil =>
    rw [List.drop_nil]
    exact List.Subset.refl _
  | cons item rest ih =>
    cases n with
    | zero => exact List.Subset.refl _
    | succ n => exact List.subset_append_of_subset_right _ (ih n)

mutual

/-- The leaves of a statement are read from its atoms, in order. -/
theorem Statement.located {form : Sexp} {node : Node} {around : List Position}
    (h : Statement file form node) :
    spotsIn around form ⊆ spots →
      List.Forall₂ (Located file spots) node.leaves (origins around form) := by
  cases h with
  | @function start name rest s body hsignature hbody =>
    intro hown
    have hsize := sizeOf_drop_le rest s.clauses
    have hrest := (subset_of_cons (subset_of_cons hown).2).2
    have hleaves := hbody.located fun _ hspot => hrest (spotsInAll_drop _ rest s.clauses hspot)
    rw [← originsAll_of_isClause (isClause_of_signature hsignature),
      List.take_append_drop] at hleaves
    exact hleaves
  | declaration hnames => exact fun _ => .nil
  | initialised hnames hvalue | assignment hnames hvalue =>
    intro hown
    have hitems := subset_of_cons (subset_of_cons hown).2
    exact hvalue.located (subset_of_cons hitems.2).1
  | expression hvalue =>
    intro hown
    exact hvalue.located (subset_of_cons (subset_of_cons hown).2).1
  | branch hcondition hbody =>
    intro hown
    obtain ⟨hfirst, hrest⟩ := subset_of_cons (subset_of_cons hown).2
    exact List.rel_append (hcondition.located hfirst) (hbody.located hrest)
  | switch hselector hclauses =>
    intro hown
    obtain ⟨hfirst, hrest⟩ := subset_of_cons (subset_of_cons hown).2
    obtain ⟨harms, hfallback⟩ := hclauses.located hrest
    exact List.rel_append (List.rel_append (hselector.located hfirst) harms) (hfallback .nil)
  | loop hinit hcondition hpost hbody =>
    intro hown
    obtain ⟨hfirst, hrest⟩ := subset_of_cons (subset_of_cons hown).2
    obtain ⟨hsecond, hrest⟩ := subset_of_cons hrest
    obtain ⟨hthird, hrest⟩ := subset_of_cons hrest
    have hinits := hinit.located (subset_of_cons hfirst).2
    have hposts := hpost.located (subset_of_cons hthird).2
    exact List.rel_append (List.rel_append (List.rel_append hinits (hcondition.located hsecond))
      hposts) (hbody.located hrest)
  | block hbody => exact fun hown => hbody.located (subset_of_cons hown).2
  | breakOut | continueOn | leave => exact fun _ => .nil
termination_by sizeOf form

theorem Statements.located {items : List Sexp} {nodes : List Node} {around : List Position}
    (h : Statements file items nodes) :
    spotsInAll around items ⊆ spots →
      List.Forall₂ (Located file spots) (Node.leavesAll nodes) (originsAll around items) := by
  cases h with
  | nil => exact fun _ => .nil
  | cons hitem hitems =>
    intro hown
    obtain ⟨hfirst, hrest⟩ := subset_of_cons hown
    exact List.rel_append (hitem.located hfirst) (hitems.located hrest)
termination_by sizeOf items

/-- The cases of a switch, and its default if it was not found before. -/
theorem Clauses.located {switch : Position} {found fallback : Option Node} {clauses : List Sexp}
    {arms : List Node} {outer : List Position} {before : List Origin}
    (h : Clauses file (switch.loc file) found clauses arms fallback) :
    spotsInAll (switch :: outer) clauses ⊆ spots →
      List.Forall₂ (Located file spots) (Node.leavesAll arms)
        (clauseOrigins "case" (switch :: outer) clauses) ∧
      (List.Forall₂ (Located file spots) (Node.leavesOption found) before →
        List.Forall₂ (Located file spots) (Node.leavesOption fallback)
          (before ++ clauseOrigins "default" (switch :: outer) clauses)) := by
  cases h with
  | nil =>
    refine fun _ => ⟨.nil, fun hbefore => ?_⟩
    rw [clauseOrigins, List.append_nil]
    exact hbefore
  | arm hvalue hbody hrest =>
    intro hown
    obtain ⟨hfirst, hlater⟩ := subset_of_cons hown
    obtain ⟨hfirst, hitems⟩ := subset_of_cons (subset_of_cons hfirst).2
    obtain ⟨harms, hfallback⟩ := hrest.located hlater
    exact ⟨List.rel_append (List.rel_append (hvalue.located_armValue hfirst)
      (hbody.located hitems)) harms, hfallback⟩
  | fallback hbody hrest =>
    intro hown
    obtain ⟨hfirst, hlater⟩ := subset_of_cons hown
    have hdefault := hbody.located (subset_of_cons hfirst).2
    obtain ⟨harms, hfallback⟩ := hrest.located hlater
    refine ⟨harms, fun hbefore => ?_⟩
    cases hbefore
    exact hfallback hdefault
termination_by sizeOf clauses

end

end Located

/-- The atoms of simple forms are those of the text, each in the lists that stand at the
places of the parentheses around it. -/
theorem spots_of_forms {text : String} {items : List Sexp} (h : forms text = .ok items)
    (hunescaped : isUnescaped text.toList = true) (hsimple : areSimple items = true) :
    spots text.toList = spotsInAll [] items := by
  obtain ⟨lexemes, closed, placed, hlex, hplaced, hplaces⟩ := exists_lexemes_of_forms h hunescaped
  rw [← hplaces, ← areSimple_unplacedAll, unplacedAll_locateAll, unplacedAll_idem,
    areSimple_unplacedAll] at hsimple
  rw [hplaced.opened_eq hsimple, locateAll_unplaced] at hplaces
  rw [spots, hlex, hplaced.spotsOf_append hsimple, ← hplaces]
  exact List.append_nil _

/-- Every literal and identifier of a program is read from an atom of the text and is
said to be where the innermost form around the atom begins; only the value of a case
is said to be where the switch around its clause begins. -/
theorem leaves_located {file text : String} {program : Node}
    (h : Node.ofText? file text = .ok program) (hunescaped : isUnescaped text.toList = true) :
    ∃ items, forms text = .ok items ∧
      List.Forall₂ (Located file (spots text.toList)) program.leaves (originsAll [] items) := by
  rw [Node.ofText?] at h
  obtain ⟨items, hitems, h⟩ := exists_of_bind_eq_ok h
  obtain ⟨nodes, hnodes, h⟩ := exists_of_bind_eq_ok h
  cases h
  have hstatements := statements_grammar 0 items hnodes
  refine ⟨items, hitems, hstatements.located ?_⟩
  rw [spots_of_forms hitems hunescaped hstatements.areSimple]
  exact List.Subset.refl _

/-- A parenthesis in a comment, one in a text, and a default before the case. -/
def layeredText : String :=
  "(set a (add a 1)) ; (\n(switch (f \"(\")\n  (default (expr (g c)))\n  (case 0x10 (let x true)))"

theorem leaves_located_layeredText : ∃ program items,
    Node.ofText? "<string>" layeredText = .ok program ∧ isUnescaped layeredText.toList = true ∧
      forms layeredText = .ok items ∧
      (originsAll [] items).map Origin.isArmValue = [false, false, false, true, false, false] ∧
      List.Forall₂ (Located "<string>" (spots layeredText.toList)) program.leaves
        (originsAll [] items) := by
  have hprogram : (Node.ofText? "<string>" layeredText).toOption.any (fun _ => true) = true := by
    decide +kernel
  obtain ⟨program, hread, _⟩ := exists_of_any hprogram
  have hunescaped : isUnescaped layeredText.toList = true := by decide +kernel
  have hvalues : (forms layeredText).toOption.map
      (fun items => (originsAll [] items).map Origin.isArmValue) =
        some [false, false, false, true, false, false] := by
    decide +kernel
  obtain ⟨items, hitems, hleaves⟩ := leaves_located hread hunescaped
  rw [hitems] at hvalues
  exact ⟨program, items, hread, hunescaped, hitems, Option.some.inj hvalues, hleaves⟩

/-- The only zero of this text is in a case on the second line, and is said to be where
the switch begins. -/
theorem exists_misplaced_leaf : ∃ program leaf,
    Node.ofText? "<string>" "(switch 1\n  (case 0))" = .ok program ∧ leaf ∈ program.leaves ∧
      leaf.loc? = some ⟨"<string>", 1, 1⟩ ∧
      ((spots "(switch 1\n  (case 0))".toList).filter
        fun spot => spot.atom.atoms = leaf.atoms).map Spot.around = [[⟨2, 3⟩, ⟨1, 1⟩]] := by
  have hprogram : (Node.ofText? "<string>" "(switch 1\n  (case 0))").toOption.any
      (fun program => program.leaves.any fun leaf =>
        decide (leaf.loc? = some ⟨"<string>", 1, 1⟩ ∧ leaf.atoms = [.integer 0])) = true := by
    decide +kernel
  have hspots : ((spots "(switch 1\n  (case 0))".toList).filter
      fun spot => spot.atom.atoms = [.integer 0]).map Spot.around = [[⟨2, 3⟩, ⟨1, 1⟩]] := by
    decide +kernel
  obtain ⟨program, hread, hfound⟩ := exists_of_any hprogram
  obtain ⟨leaf, hleaf, hsaid⟩ := List.any_eq_true.mp hfound
  obtain ⟨hloc, hatoms⟩ := of_decide_eq_true hsaid
  exact ⟨program, leaf, hread, hleaf, hloc, hatoms ▸ hspots⟩

end Reader

end YulTaint
