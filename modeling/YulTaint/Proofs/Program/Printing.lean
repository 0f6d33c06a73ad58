import Mathlib.Tactic
import YulTaint.Proofs.Program.Grammar
import YulTaint.Proofs.Sexp.Spelling

/-!
Printed programs. Each statement has a form in the grammar, and a text that lays
out the forms of some statements in any way is read as these statements. Only
places are new: they are those of the text.
-/

namespace YulTaint

open Sexp (isName Layout)

mutual

def Node.unplaced : Node → Node
  | .literal value _ => .literal value {}
  | .identifier name _ => .identifier name {}
  | .call name args _ => .call name (Node.unplacedAll args) {}
  | .block statements _ => .block (Node.unplacedAll statements) {}
  | .declaration names value _ => .declaration names (Node.unplacedOption value) {}
  | .assignment names value _ => .assignment names value.unplaced {}
  | .expression value _ => .expression value.unplaced {}
  | .branch condition body _ => .branch condition.unplaced body.unplaced {}
  | .switch selector arms fallback _ =>
    .switch selector.unplaced (Node.unplacedAll arms) (Node.unplacedOption fallback) {}
  | .caseArm value body _ => .caseArm value.unplaced body.unplaced {}
  | .loop init condition post body _ =>
    .loop init.unplaced condition.unplaced post.unplaced body.unplaced {}
  | .function name params returns body _ => .function name params returns body.unplaced {}
  | .breakOut _ => .breakOut {}
  | .continueOn _ => .continueOn {}
  | .leave _ => .leave {}
  | .program name statements _ => .program name (Node.unplacedAll statements) {}
  | .foreign kind => .foreign kind

def Node.unplacedAll : List Node → List Node
  | [] => []
  | node :: rest => node.unplaced :: Node.unplacedAll rest

def Node.unplacedOption : Option Node → Option Node
  | none => none
  | some node => some node.unplaced

end

def Literal.form : Literal → Sexp
  | .truth true => .symbol "true"
  | .truth false => .symbol "false"
  | .integer value => .integer value
  | .text value => .text value

/-- One name stands alone. -/
def namesForm : List String → Sexp
  | [name] => .symbol name
  | names => .list {} (names.map .symbol)

mutual

/-- A statement or an expression as a form, with the places of lists left open. -/
def Node.form : Node → Sexp
  | .literal value _ => value.form
  | .identifier name _ => .symbol name
  | .call name args _ => .list {} (.symbol name :: Node.formAll args)
  | .block statements _ => .list {} (.symbol "block" :: Node.formAll statements)
  | .declaration names value _ => .list {} (.symbol "let" :: namesForm names :: Node.valueForms value)
  | .assignment names value _ => .list {} [.symbol "set", namesForm names, value.form]
  | .expression value _ => .list {} [.symbol "expr", value.form]
  | .branch condition body _ => .list {} (.symbol "if" :: condition.form :: body.bodyForms)
  | .switch selector arms fallback _ =>
    .list {} (.symbol "switch" :: selector.form :: (Node.formAll arms ++ Node.fallbackForms fallback))
  | .caseArm value body _ => .list {} (.symbol "case" :: value.form :: body.bodyForms)
  | .loop init condition post body _ =>
    .list {} (.symbol "for" :: .list {} (.symbol "init" :: init.bodyForms) :: condition.form ::
      .list {} (.symbol "post" :: post.bodyForms) :: body.bodyForms)
  | .function name params returns body _ =>
    .list {} (.symbol "function" :: .symbol name ::
      .list {} (.symbol "params" :: params.map .symbol) ::
      .list {} (.symbol "returns" :: returns.map .symbol) :: body.bodyForms)
  | .breakOut _ => .list {} [.symbol "break"]
  | .continueOn _ => .list {} [.symbol "continue"]
  | .leave _ => .list {} [.symbol "leave"]
  | .program .. | .foreign _ => .list {} []

def Node.bodyForms : Node → List Sexp
  | .block statements _ => Node.formAll statements
  | _ => []

def Node.formAll : List Node → List Sexp
  | [] => []
  | node :: rest => node.form :: Node.formAll rest

def Node.valueForms : Option Node → List Sexp
  | none => []
  | some value => [value.form]

def Node.fallbackForms : Option Node → List Sexp
  | none => []
  | some body => [.list {} (.symbol "default" :: body.bodyForms)]

end

def isVariable (name : String) : Bool :=
  isName name && name != "true" && name != "false"

def Node.isLiteral : Node → Bool
  | .literal .. => true
  | _ => false

theorem Node.exists_literal_of_isLiteral {node : Node} (h : node.isLiteral = true) :
    ∃ value loc, node = .literal value loc := by
  cases node with
  | literal value loc => exact ⟨value, loc, rfl⟩
  | _ => cases h

mutual

def Node.isExpression : Node → Bool
  | .literal .. => true
  | .identifier name _ => isVariable name
  | .call _ args _ => areExpressions args
  | _ => false

def areExpressions : List Node → Bool
  | [] => true
  | node :: rest => node.isExpression && areExpressions rest

end

mutual

/-- Every part is of the sort that belongs there. What names and integers may look
like is a matter of their spelling. -/
def Node.isStatement : Node → Bool
  | .block statements _ => areStatements statements
  | .declaration _ value _ => value.all Node.isExpression
  | .assignment _ value _ => value.isExpression
  | .expression value _ => value.isExpression
  | .branch condition body _ => condition.isExpression && body.isBody
  | .switch selector arms fallback _ => selector.isExpression && areArms arms && isFallback fallback
  | .loop init condition post body _ =>
    init.isBody && condition.isExpression && post.isBody && body.isBody
  | .function _ _ _ body _ => body.isBody
  | .breakOut _ | .continueOn _ | .leave _ => true
  | _ => false

def Node.isBody : Node → Bool
  | .block statements _ => areStatements statements
  | _ => false

def areStatements : List Node → Bool
  | [] => true
  | node :: rest => node.isStatement && areStatements rest

def Node.isArm : Node → Bool
  | .caseArm value body _ => value.isLiteral && body.isBody
  | _ => false

def areArms : List Node → Bool
  | [] => true
  | node :: rest => node.isArm && areArms rest

def isFallback : Option Node → Bool
  | none => true
  | some body => body.isBody

end

namespace Sexp

variable {item : Sexp} {items front tail : List Sexp} {names : List String}

theorem eq_symbol_of_unplaced {name : String} (h : item.unplaced = .symbol name) : item = .symbol name := by
  cases item <;> simp_all [unplaced]

theorem exists_cons_of_unplacedAll {first : Sexp} (h : unplacedAll items = first :: tail) :
    ∃ item rest, items = item :: rest ∧ item.unplaced = first ∧ unplacedAll rest = tail := by
  cases items with
  | nil => cases h
  | cons item rest =>
    rw [unplacedAll, List.cons.injEq] at h
    exact ⟨item, rest, rfl, h⟩

theorem eq_nil_of_unplacedAll (h : unplacedAll items = []) : items = [] := by
  cases items with
  | nil => rfl
  | cons item rest => cases h

theorem exists_append_of_unplacedAll (h : unplacedAll items = front ++ tail) :
    ∃ first rest, items = first ++ rest ∧ unplacedAll first = front ∧ unplacedAll rest = tail := by
  induction front generalizing items with
  | nil => exact ⟨[], items, rfl, rfl, h⟩
  | cons item front ih =>
    obtain ⟨placed, more, rfl, hitem, hmore⟩ := exists_cons_of_unplacedAll h
    obtain ⟨first, rest, rfl, hfirst, hrest⟩ := ih hmore
    exact ⟨placed :: first, rest, rfl, by rw [unplacedAll, hitem, hfirst], hrest⟩

theorem exists_list_of_unplaced {start : Position} (h : item.unplaced = .list start tail) :
    ∃ start items, item = .list start items ∧ unplacedAll items = tail := by
  cases item with
  | list start items =>
    rw [unplaced, list.injEq] at h
    exact ⟨start, items, rfl, h.2⟩
  | _ => cases h

/-- A form keeps its head. -/
theorem exists_form_of_unplaced {start : Position} {head : String}
    (h : item.unplaced = .list start (.symbol head :: tail)) :
    ∃ start items, item = .list start (.symbol head :: items) ∧ unplacedAll items = tail := by
  obtain ⟨start, items, rfl, hitems⟩ := exists_list_of_unplaced h
  obtain ⟨first, items, rfl, hfirst, hrest⟩ := exists_cons_of_unplacedAll hitems
  obtain rfl := eq_symbol_of_unplaced hfirst
  exact ⟨start, items, rfl, hrest⟩

theorem eq_map_of_unplacedAll (h : unplacedAll items = names.map .symbol) : items = names.map .symbol := by
  induction names generalizing items with
  | nil => exact eq_nil_of_unplacedAll h
  | cons name names ih =>
    obtain ⟨item, rest, rfl, hitem, hrest⟩ := exists_cons_of_unplacedAll h
    rw [eq_symbol_of_unplaced hitem, ih hrest]
    rfl

end Sexp

namespace Reader

open Sexp

variable {file : String} {here : Loc}

theorem names_of_namesForm {item : Sexp} {names : List String} (h : item.unplaced = namesForm names) :
    Names item names := by
  unfold namesForm at h
  split at h
  · rw [eq_symbol_of_unplaced h]
    exact .one _
  · obtain ⟨start, items, rfl, hitems⟩ := exists_list_of_unplaced h
    rw [eq_map_of_unplacedAll hitems]
    exact .list start _

theorem hexSymbol?_of_isName {name : String} (h : isName name = true) : hexSymbol? name = none := by
  have hminus : isNameStart '-' = false := by decide
  have hzero : isNameStart '0' = false := by decide
  unfold isName at h
  unfold hexSymbol?
  split
  · rename_i hname
    simp [hname, hminus] at h
  · rename_i hname
    simp [hname, hzero] at h
  · rfl

theorem symbolNode_of_isVariable {name : String} (h : isVariable name = true) :
    symbolNode here name = .identifier name here := by
  simp only [isVariable, Bool.and_eq_true, bne_iff_ne] at h
  obtain ⟨⟨hname, htrue⟩, hfalse⟩ := h
  rw [symbolNode, if_neg htrue, if_neg hfalse, hexSymbol?_of_isName hname]

theorem expression_of_literal {item : Sexp} {value : Literal} (h : item.unplaced = value.form) :
    Expression file here item (.literal value here) := by
  cases value with
  | truth value =>
    cases value <;> obtain rfl := eq_symbol_of_unplaced h <;> exact .symbol here _
  | integer value =>
    obtain rfl : item = .integer value := by cases item <;> simp_all [unplaced, Literal.form]
    exact .integer here value
  | text value =>
    obtain rfl : item = .text value := by cases item <;> simp_all [unplaced, Literal.form]
    exact .text here value

mutual

theorem expression_of_form (s : Node) (hs : s.isExpression = true) (here : Loc) {item : Sexp}
    (hitem : item.unplaced = s.form) :
    ∃ node, Expression file here item node ∧ node.unplaced = s.unplaced := by
  cases s with
  | literal value loc => exact ⟨_, expression_of_literal hitem, rfl⟩
  | identifier name loc =>
    obtain rfl := eq_symbol_of_unplaced hitem
    refine ⟨_, .symbol here name, ?_⟩
    rw [symbolNode_of_isVariable hs]
    rfl
  | call name args loc =>
    obtain ⟨start, items, rfl, hitems⟩ := exists_form_of_unplaced hitem
    obtain ⟨nodes, hnodes, hsame⟩ := expressions_of_forms args hs (start.loc file) hitems
    refine ⟨_, .call hnodes, ?_⟩
    rw [Node.unplaced, Node.unplaced, hsame]
  | _ => cases hs

theorem expressions_of_forms (all : List Node) (hall : areExpressions all = true) (here : Loc)
    {items : List Sexp} (hitems : Sexp.unplacedAll items = Node.formAll all) :
    ∃ nodes, Expressions file here items nodes ∧ Node.unplacedAll nodes = Node.unplacedAll all := by
  cases all with
  | nil =>
    obtain rfl := eq_nil_of_unplacedAll hitems
    exact ⟨[], .nil here, rfl⟩
  | cons s rest =>
    obtain ⟨hs, hrest⟩ := Bool.and_eq_true_iff.mp hall
    obtain ⟨item, more, rfl, hitem, hmore⟩ := exists_cons_of_unplacedAll hitems
    obtain ⟨node, hnode, hsame⟩ := expression_of_form s hs here hitem
    obtain ⟨nodes, hnodes, hsames⟩ := expressions_of_forms rest hrest here hmore
    refine ⟨node :: nodes, .cons hnode hnodes, ?_⟩
    rw [Node.unplacedAll, Node.unplacedAll, hsame, hsames]

end

/-- A statement is no clause of a signature. -/
theorem signature_of_statements {items : List Sexp} {nodes : List Node}
    (h : Statements file items nodes) (found : Signature) : signature found items = .ok found := by
  cases h with
  | nil => rfl
  | cons hitem _ =>
    cases hitem <;>
      · unfold signature
        rw [if_neg (by decide), if_neg (by decide)]

theorem signature_of_clauses {params returns : List String} {items : List Sexp} {nodes : List Node}
    (h : Statements file items nodes) (first second : Position) :
    signature {} (.list first (.symbol "params" :: params.map .symbol) ::
      .list second (.symbol "returns" :: returns.map .symbol) :: items) =
      .ok ⟨params, returns, 2⟩ := by
  unfold signature
  rw [if_pos rfl, symbolNames_map]
  change signature _ _ = _
  unfold signature
  rw [if_neg (by decide), if_pos rfl, symbolNames_map]
  exact signature_of_statements h _

mutual

/-- The form of a statement is read as the statement, up to places. -/
theorem statement_of_form (s : Node) (hs : s.isStatement = true) {item : Sexp}
    (hitem : item.unplaced = s.form) :
    ∃ node, Statement file item node ∧ node.unplaced = s.unplaced := by
  cases s with
  | block statements loc =>
    obtain ⟨start, items, rfl, hitems⟩ := exists_form_of_unplaced hitem
    obtain ⟨body, hbody, hsame⟩ := statements_of_forms statements hs hitems
    refine ⟨_, .block hbody, ?_⟩
    rw [Node.unplaced, Node.unplaced, hsame]
  | declaration names value loc =>
    obtain ⟨start, items, rfl, hitems⟩ := exists_form_of_unplaced hitem
    obtain ⟨first, rest, rfl, hfirst, hrest⟩ := exists_cons_of_unplacedAll hitems
    have hnames := names_of_namesForm hfirst
    cases value with
    | none =>
      obtain rfl := eq_nil_of_unplacedAll hrest
      exact ⟨_, .declaration hnames, rfl⟩
    | some value =>
      obtain ⟨second, rest, rfl, hsecond, hrest⟩ := exists_cons_of_unplacedAll hrest
      obtain rfl := eq_nil_of_unplacedAll hrest
      obtain ⟨node, hnode, hsame⟩ := expression_of_form value hs (start.loc file) hsecond
      refine ⟨_, .initialised hnames hnode, ?_⟩
      rw [Node.unplaced, Node.unplaced, Node.unplacedOption, Node.unplacedOption, hsame]
  | assignment names value loc =>
    obtain ⟨start, items, rfl, hitems⟩ := exists_form_of_unplaced hitem
    obtain ⟨first, rest, rfl, hfirst, hrest⟩ := exists_cons_of_unplacedAll hitems
    obtain ⟨second, rest, rfl, hsecond, hrest⟩ := exists_cons_of_unplacedAll hrest
    obtain rfl := eq_nil_of_unplacedAll hrest
    obtain ⟨node, hnode, hsame⟩ := expression_of_form value hs (start.loc file) hsecond
    refine ⟨_, .assignment (names_of_namesForm hfirst) hnode, ?_⟩
    rw [Node.unplaced, Node.unplaced, hsame]
  | expression value loc =>
    obtain ⟨start, items, rfl, hitems⟩ := exists_form_of_unplaced hitem
    obtain ⟨first, rest, rfl, hfirst, hrest⟩ := exists_cons_of_unplacedAll hitems
    obtain rfl := eq_nil_of_unplacedAll hrest
    obtain ⟨node, hnode, hsame⟩ := expression_of_form value hs (start.loc file) hfirst
    refine ⟨_, .expression hnode, ?_⟩
    rw [Node.unplaced, Node.unplaced, hsame]
  | branch condition body loc =>
    obtain ⟨hcondition, hbody⟩ := Bool.and_eq_true_iff.mp hs
    obtain ⟨start, items, rfl, hitems⟩ := exists_form_of_unplaced hitem
    obtain ⟨first, rest, rfl, hfirst, hrest⟩ := exists_cons_of_unplacedAll hitems
    obtain ⟨node, hnode, hsame⟩ := expression_of_form condition hcondition (start.loc file) hfirst
    obtain ⟨inner, hinner, hblock⟩ := statements_of_bodyForms body hbody hrest
    refine ⟨_, .branch hnode hinner, ?_⟩
    simp only [Node.unplaced, hsame, hblock]
  | switch selector arms fallback loc =>
    rw [Node.isStatement, Bool.and_eq_true, Bool.and_eq_true] at hs
    obtain ⟨⟨hselector, harms⟩, hfallback⟩ := hs
    obtain ⟨start, items, rfl, hitems⟩ := exists_form_of_unplaced hitem
    obtain ⟨first, rest, rfl, hfirst, hrest⟩ := exists_cons_of_unplacedAll hitems
    obtain ⟨front, tail, rfl, hfront, htail⟩ := exists_append_of_unplacedAll hrest
    obtain ⟨node, hnode, hsame⟩ := expression_of_form selector hselector (start.loc file) hfirst
    obtain ⟨last, hlast, hsameLast⟩ :=
      clauses_of_fallbackForms fallback hfallback (start.loc file) htail
    obtain ⟨read, hread, hsameArms⟩ := clauses_of_armForms arms harms hfront hlast
    refine ⟨_, .switch hnode hread, ?_⟩
    rw [Node.unplaced, Node.unplaced, hsame, hsameArms, hsameLast]
  | loop init condition post body loc =>
    rw [Node.isStatement, Bool.and_eq_true, Bool.and_eq_true, Bool.and_eq_true] at hs
    obtain ⟨⟨⟨hinit, hcondition⟩, hpost⟩, hbody⟩ := hs
    obtain ⟨start, items, rfl, hitems⟩ := exists_form_of_unplaced hitem
    obtain ⟨first, tail, rfl, hfirst, htail⟩ := exists_cons_of_unplacedAll hitems
    obtain ⟨second, tail, rfl, hsecond, htail⟩ := exists_cons_of_unplacedAll htail
    obtain ⟨third, rest, rfl, hthird, hrest⟩ := exists_cons_of_unplacedAll htail
    obtain ⟨_, inits, rfl, hinits⟩ := exists_form_of_unplaced hfirst
    obtain ⟨_, posts, rfl, hposts⟩ := exists_form_of_unplaced hthird
    obtain ⟨before, hbefore, hsameInit⟩ := statements_of_bodyForms init hinit hinits
    obtain ⟨node, hnode, hsame⟩ := expression_of_form condition hcondition (start.loc file) hsecond
    obtain ⟨after, hafter, hsamePost⟩ := statements_of_bodyForms post hpost hposts
    obtain ⟨inner, hinner, hsameBody⟩ := statements_of_bodyForms body hbody hrest
    refine ⟨_, .loop hbefore hnode hafter hinner, ?_⟩
    simp only [Node.unplaced, hsameInit, hsame, hsamePost, hsameBody]
  | function name params returns body loc =>
    obtain ⟨start, items, rfl, hitems⟩ := exists_form_of_unplaced hitem
    obtain ⟨first, tail, rfl, hfirst, htail⟩ := exists_cons_of_unplacedAll hitems
    obtain ⟨second, tail, rfl, hsecond, htail⟩ := exists_cons_of_unplacedAll htail
    obtain ⟨third, rest, rfl, hthird, hrest⟩ := exists_cons_of_unplacedAll htail
    obtain rfl := eq_symbol_of_unplaced hfirst
    obtain ⟨paramsStart, _, rfl, hparams⟩ := exists_form_of_unplaced hsecond
    obtain ⟨returnsStart, _, rfl, hreturns⟩ := exists_form_of_unplaced hthird
    rw [eq_map_of_unplacedAll hparams, eq_map_of_unplacedAll hreturns]
    obtain ⟨inner, hinner, hsame⟩ := statements_of_bodyForms body hs hrest
    refine ⟨_, .function (signature_of_clauses hinner paramsStart returnsStart) hinner, ?_⟩
    simp only [Node.unplaced, hsame]
  | breakOut loc =>
    obtain ⟨start, items, rfl, hitems⟩ := exists_form_of_unplaced hitem
    obtain rfl := eq_nil_of_unplacedAll hitems
    exact ⟨_, .breakOut start, rfl⟩
  | continueOn loc =>
    obtain ⟨start, items, rfl, hitems⟩ := exists_form_of_unplaced hitem
    obtain rfl := eq_nil_of_unplacedAll hitems
    exact ⟨_, .continueOn start, rfl⟩
  | leave loc =>
    obtain ⟨start, items, rfl, hitems⟩ := exists_form_of_unplaced hitem
    obtain rfl := eq_nil_of_unplacedAll hitems
    exact ⟨_, .leave start, rfl⟩
  | _ => cases hs

theorem statements_of_bodyForms (body : Node) (hbody : body.isBody = true) {items : List Sexp}
    (hitems : Sexp.unplacedAll items = body.bodyForms) :
    ∃ nodes, Statements file items nodes ∧
      Node.block (Node.unplacedAll nodes) {} = body.unplaced := by
  cases body with
  | block statements loc =>
    obtain ⟨nodes, hnodes, hsame⟩ := statements_of_forms statements hbody hitems
    refine ⟨nodes, hnodes, ?_⟩
    rw [Node.unplaced, hsame]
  | _ => cases hbody

theorem statements_of_forms (all : List Node) (hall : areStatements all = true) {items : List Sexp}
    (hitems : Sexp.unplacedAll items = Node.formAll all) :
    ∃ nodes, Statements file items nodes ∧ Node.unplacedAll nodes = Node.unplacedAll all := by
  cases all with
  | nil =>
    obtain rfl := eq_nil_of_unplacedAll hitems
    exact ⟨[], .nil, rfl⟩
  | cons s rest =>
    obtain ⟨hs, hrest⟩ := Bool.and_eq_true_iff.mp hall
    obtain ⟨item, more, rfl, hitem, hmore⟩ := exists_cons_of_unplacedAll hitems
    obtain ⟨node, hnode, hsame⟩ := statement_of_form s hs hitem
    obtain ⟨nodes, hnodes, hsames⟩ := statements_of_forms rest hrest hmore
    refine ⟨node :: nodes, .cons hnode hnodes, ?_⟩
    rw [Node.unplacedAll, Node.unplacedAll, hsame, hsames]

theorem clauses_of_fallbackForms (fallback : Option Node) (hfallback : isFallback fallback = true)
    (here : Loc) {items : List Sexp}
    (hitems : Sexp.unplacedAll items = Node.fallbackForms fallback) :
    ∃ read, Clauses file here none items [] read ∧
      Node.unplacedOption read = Node.unplacedOption fallback := by
  cases fallback with
  | none =>
    obtain rfl := eq_nil_of_unplacedAll hitems
    exact ⟨none, .nil here none, rfl⟩
  | some body =>
    obtain ⟨first, rest, rfl, hfirst, hrest⟩ := exists_cons_of_unplacedAll hitems
    obtain rfl := eq_nil_of_unplacedAll hrest
    obtain ⟨start, inner, rfl, hinner⟩ := exists_form_of_unplaced hfirst
    obtain ⟨nodes, hnodes, hsame⟩ := statements_of_bodyForms body hfallback hinner
    refine ⟨_, .fallback hnodes (.nil here _), ?_⟩
    simp only [Node.unplacedOption, Node.unplaced, hsame]

theorem clauses_of_armForms (arms : List Node) (harms : areArms arms = true) {here : Loc}
    {items rest : List Sexp} {fallback : Option Node}
    (hitems : Sexp.unplacedAll items = Node.formAll arms)
    (hrest : Clauses file here none rest [] fallback) :
    ∃ read, Clauses file here none (items ++ rest) read fallback ∧
      Node.unplacedAll read = Node.unplacedAll arms := by
  cases arms with
  | nil =>
    obtain rfl := eq_nil_of_unplacedAll hitems
    exact ⟨[], hrest, rfl⟩
  | cons arm arms =>
    obtain ⟨harm, harms⟩ := Bool.and_eq_true_iff.mp harms
    obtain ⟨first, more, rfl, hfirst, hmore⟩ := exists_cons_of_unplacedAll hitems
    obtain ⟨read, hread, hsames⟩ := clauses_of_armForms arms harms hmore hrest
    cases arm with
    | caseArm value body loc =>
      obtain ⟨hvalue, hbody⟩ := Bool.and_eq_true_iff.mp harm
      obtain ⟨start, parts, rfl, hparts⟩ := exists_form_of_unplaced hfirst
      obtain ⟨second, inner, rfl, hsecond, hinner⟩ := exists_cons_of_unplacedAll hparts
      obtain ⟨nodes, hnodes, hsame⟩ := statements_of_bodyForms body hbody hinner
      obtain ⟨word, valueLoc, rfl⟩ := Node.exists_literal_of_isLiteral hvalue
      refine ⟨_, .arm (expression_of_literal hsecond) hnodes hread, ?_⟩
      simp only [Node.unplacedAll, Node.unplaced, hsame, hsames]
    | _ => cases harm

end

/-- Reading undoes printing. A text that lays out the forms of statements in any way
is read as these statements, each statement, call and case at the place where its
form opens in the text. -/
theorem read_of_layout {file text : String} {printed : List Node} {forms : List Sexp}
    (hprinted : areStatements printed = true)
    (hforms : Sexp.unplacedAll forms = Node.formAll printed) (htext : Layout text forms) :
    ∃ read, Node.ofText? file text = .ok (.program file read ⟨file, 0, 0⟩) ∧
      Node.unplacedAll read = Node.unplacedAll printed ∧ Statements file forms read := by
  obtain ⟨read, hread, hsame⟩ := statements_of_forms printed hprinted hforms
  refine ⟨read, ?_, hsame, hread⟩
  rw [Node.ofText?, forms_of_layout htext]
  change (statements file 0 forms >>= _) = _
  rw [statements_of_grammar forms hread]
  rfl

/-- The comments and the text literal hold what elsewhere opens a form or a literal. -/
def commentedText : String :=
  "(let s \"(\\\"\") ; (\n(switch (f s -1) (case true)(default (leave))) ; done"

def commentedForms : List Sexp :=
  [.list ⟨1, 1⟩ [.symbol "let", .symbol "s", .text "(\""],
   .list ⟨2, 1⟩ [.symbol "switch", .list ⟨2, 9⟩ [.symbol "f", .symbol "s", .integer (-1)],
     .list ⟨2, 18⟩ [.symbol "case", .symbol "true"],
     .list ⟨2, 29⟩ [.symbol "default", .list ⟨2, 38⟩ [.symbol "leave"]]]]

def commentedNodes : List Node :=
  [.declaration ["s"] (some (.literal (.text "(\"") {})) {},
   .switch (.call "f" [.identifier "s" {}, .literal (.integer (-1)) {}] {})
     [.caseArm (.literal (.truth true) {}) (.block [] {}) {}] (some (.block [.leave {}] {})) {}]

theorem layout_commentedText : Layout commentedText commentedForms := by
  have hname (place : Position) (name : String)
      (h : name ∈ ["let", "s", "switch", "f", "case", "true", "default", "leave"]) :
      Spells place name.toList (.symbol name) :=
    .symbol place (by revert h name; decide)
  have hspace : Gap [' '] := .blank (by decide) .nil
  have hlast : Apart [] := trivial
  have happ (rest : List Char) : Apart (' ' :: rest) := Or.inl (by decide)
  have hlet : Spells ⟨1, 1⟩ _ _ := .list
    (.cons .nil (hname _ "let" (by decide)) (fun _ => happ _)
      (.cons hspace (hname _ "s" (by decide)) (fun _ => happ _)
        (.cons hspace (.text _ "(\"") (fun h => nomatch h) (.nil _ .nil))))
  have hcall : Spells ⟨2, 9⟩ _ _ := .list
    (.cons .nil (hname _ "f" (by decide)) (fun _ => happ _)
      (.cons hspace (hname _ "s" (by decide)) (fun _ => happ _)
        (.cons hspace (.integer _ (by decide : (Nat.toDigits 10 (-1 : Int).natAbs).length ≤ _))
          (fun _ => hlast) (.nil _ .nil))))
  have hcase : Spells ⟨2, 18⟩ _ _ := .list
    (.cons .nil (hname _ "case" (by decide)) (fun _ => happ _)
      (.cons hspace (hname _ "true" (by decide)) (fun _ => hlast) (.nil _ .nil)))
  have hdefault : Spells ⟨2, 29⟩ _ _ := .list
    (.cons .nil (hname _ "default" (by decide)) (fun _ => happ _)
      (.cons hspace
        (.list (.cons .nil (hname _ "leave" (by decide)) (fun _ => hlast) (.nil _ .nil)))
        (fun h => nomatch h) (.nil _ .nil)))
  have hswitch : Spells ⟨2, 1⟩ _ _ := .list
    (.cons .nil (hname _ "switch" (by decide)) (fun _ => happ _)
      (.cons hspace hcall (fun h => nomatch h)
        (.cons hspace hcase (fun h => nomatch h)
          (.cons .nil hdefault (fun h => nomatch h) (.nil _ .nil)))))
  have hline : Gap [' ', ';', ' ', '(', '\n'] :=
    .blank (by decide) (.comment (by decide : '\n' ∉ [' ', '(']) .nil)
  have hend : Gap " ; done\n".toList :=
    .blank (by decide) (.comment (by decide : '\n' ∉ " done".toList) .nil)
  have hall : SpellsAll ⟨1, 1⟩ _ _ := .cons .nil hlet (fun h => nomatch h)
    (.cons hline hswitch (fun h => nomatch h) (.nil _ hend))
  rw [Layout]
  convert hall using 1
  · decide +kernel
  · rfl

theorem read_of_layout_commented :
    areStatements commentedNodes = true ∧
      Sexp.unplacedAll commentedForms = Node.formAll commentedNodes ∧
      Layout commentedText commentedForms ∧
      ∃ read, Node.ofText? "lib.yul" commentedText = .ok (.program "lib.yul" read ⟨"lib.yul", 0, 0⟩) ∧
        Node.unplacedAll read = Node.unplacedAll commentedNodes ∧
        Statements "lib.yul" commentedForms read := by
  have hnodes : areStatements commentedNodes = true := by decide
  exact ⟨hnodes, rfl, layout_commentedText, read_of_layout hnodes rfl layout_commentedText⟩

end Reader

end YulTaint
