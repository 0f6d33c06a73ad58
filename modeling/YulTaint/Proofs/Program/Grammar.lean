import Mathlib.Tactic
import YulTaint.Program.Reader
import YulTaint.Proofs.Lists

/-!
The grammar of programs. A form and the tree that it stands for are related
constructor by constructor, with the place of every node: a statement, a call
and a case stand where their form opens, and everything else stands where the
form around it does. The reader accepts exactly the forms of the grammar, as the
trees that it says.
-/

namespace YulTaint.Reader

inductive Names : Sexp → List String → Prop
  | one (name : String) : Names (.symbol name) [name]
  | list (start : Position) (names : List String) : Names (.list start (names.map .symbol)) names

mutual

/-- An expression inside the form at a place. -/
inductive Expression (file : String) : Loc → Sexp → Node → Prop
  | call {here : Loc} {start : Position} {name : String} {args : List Sexp} {nodes : List Node}
      (hargs : Expressions file (start.loc file) args nodes) :
      Expression file here (.list start (.symbol name :: args)) (.call name nodes (start.loc file))
  | symbol (here : Loc) (name : String) : Expression file here (.symbol name) (symbolNode here name)
  | integer (here : Loc) (value : Int) :
      Expression file here (.integer value) (.literal (.integer value) here)
  | text (here : Loc) (value : String) :
      Expression file here (.text value) (.literal (.text value) here)

inductive Expressions (file : String) : Loc → List Sexp → List Node → Prop
  | nil (here : Loc) : Expressions file here [] []
  | cons {here : Loc} {item : Sexp} {node : Node} {items : List Sexp} {nodes : List Node}
      (hitem : Expression file here item node) (hitems : Expressions file here items nodes) :
      Expressions file here (item :: items) (node :: nodes)

end

mutual

inductive Statement (file : String) : Sexp → Node → Prop
  | function {start : Position} {name : String} {rest : List Sexp} {s : Signature}
      {body : List Node} (hsignature : signature {} rest = .ok s)
      (hbody : Statements file (rest.drop s.clauses) body) :
      Statement file (.list start (.symbol "function" :: .symbol name :: rest))
        (.function name s.params s.returns (.block body (start.loc file)) (start.loc file))
  | declaration {start : Position} {item : Sexp} {names : List String} (hnames : Names item names) :
      Statement file (.list start [.symbol "let", item]) (.declaration names none (start.loc file))
  | initialised {start : Position} {item value : Sexp} {names : List String} {node : Node}
      (hnames : Names item names) (hvalue : Expression file (start.loc file) value node) :
      Statement file (.list start [.symbol "let", item, value])
        (.declaration names (some node) (start.loc file))
  | assignment {start : Position} {item value : Sexp} {names : List String} {node : Node}
      (hnames : Names item names) (hvalue : Expression file (start.loc file) value node) :
      Statement file (.list start [.symbol "set", item, value])
        (.assignment names node (start.loc file))
  | expression {start : Position} {value : Sexp} {node : Node}
      (hvalue : Expression file (start.loc file) value node) :
      Statement file (.list start [.symbol "expr", value]) (.expression node (start.loc file))
  | branch {start : Position} {condition : Sexp} {node : Node} {items : List Sexp}
      {body : List Node} (hcondition : Expression file (start.loc file) condition node)
      (hbody : Statements file items body) :
      Statement file (.list start (.symbol "if" :: condition :: items))
        (.branch node (.block body (start.loc file)) (start.loc file))
  | switch {start : Position} {selector : Sexp} {node : Node} {clauses : List Sexp}
      {arms : List Node} {fallback : Option Node}
      (hselector : Expression file (start.loc file) selector node)
      (hclauses : Clauses file (start.loc file) none clauses arms fallback) :
      Statement file (.list start (.symbol "switch" :: selector :: clauses))
        (.switch node arms fallback (start.loc file))
  | loop {start initStart postStart : Position} {condition : Sexp} {node : Node}
      {inits posts items : List Sexp} {init post body : List Node}
      (hinit : Statements file inits init)
      (hcondition : Expression file (start.loc file) condition node)
      (hpost : Statements file posts post) (hbody : Statements file items body) :
      Statement file
        (.list start (.symbol "for" :: .list initStart (.symbol "init" :: inits) :: condition ::
          .list postStart (.symbol "post" :: posts) :: items))
        (.loop (.block init (start.loc file)) node (.block post (start.loc file))
          (.block body (start.loc file)) (start.loc file))
  | block {start : Position} {items : List Sexp} {body : List Node}
      (hbody : Statements file items body) :
      Statement file (.list start (.symbol "block" :: items)) (.block body (start.loc file))
  | breakOut (start : Position) :
      Statement file (.list start [.symbol "break"]) (.breakOut (start.loc file))
  | continueOn (start : Position) :
      Statement file (.list start [.symbol "continue"]) (.continueOn (start.loc file))
  | leave (start : Position) :
      Statement file (.list start [.symbol "leave"]) (.leave (start.loc file))

inductive Statements (file : String) : List Sexp → List Node → Prop
  | nil : Statements file [] []
  | cons {item : Sexp} {node : Node} {items : List Sexp} {nodes : List Node}
      (hitem : Statement file item node) (hitems : Statements file items nodes) :
      Statements file (item :: items) (node :: nodes)

/-- The clauses of a switch at a place, given the default found before. -/
inductive Clauses (file : String) :
    Loc → Option Node → List Sexp → List Node → Option Node → Prop
  | nil (here : Loc) (fallback : Option Node) : Clauses file here fallback [] [] fallback
  | arm {here : Loc} {found fallback : Option Node} {start : Position} {value : Sexp}
      {literal : Literal} {loc : Loc} {items rest : List Sexp} {body arms : List Node}
      (hvalue : Expression file here value (.literal literal loc))
      (hbody : Statements file items body) (hrest : Clauses file here found rest arms fallback) :
      Clauses file here found (.list start (.symbol "case" :: value :: items) :: rest)
        (.caseArm (.literal literal loc) (.block body (start.loc file)) (start.loc file) :: arms)
        fallback
  | fallback {here : Loc} {fallback : Option Node} {start : Position} {items rest : List Sexp}
      {body arms : List Node} (hbody : Statements file items body)
      (hrest : Clauses file here (some (.block body here)) rest arms fallback) :
      Clauses file here none (.list start (.symbol "default" :: items) :: rest) arms fallback

end

section Except

variable {ε α β : Type} {x : Except ε α} {f : α → Except ε β}

theorem exists_of_bind_eq_ok {b : β} (h : x >>= f = .ok b) : ∃ a, x = .ok a ∧ f a = .ok b := by
  cases x with
  | error e => cases h
  | ok a => exact ⟨a, rfl, h⟩

theorem exists_of_any {p : α → Bool} (h : x.toOption.any p = true) : ∃ a, x = .ok a ∧ p a = true := by
  cases x with
  | error e => cases h
  | ok a => exact ⟨a, rfl, h⟩

end Except

variable {file : String} {here : Loc} {item : Sexp} {node : Node} {args : List Sexp}
  {names : List String} {start : Position}

theorem eq_symbol_of_symbolName {expected : String} {name : String}
    (h : symbolName expected item = .ok name) : item = .symbol name := by
  unfold symbolName at h
  split at h
  · cases h
    rfl
  · cases h

theorem eq_map_of_symbolNames {expected : String} {items : List Sexp}
    (h : symbolNames expected items = .ok names) : items = names.map .symbol := by
  rw [symbolNames, mapM_eq_ok_iff] at h
  induction h with
  | nil => rfl
  | cons hitem _ ih => rw [List.map_cons, ← ih, eq_symbol_of_symbolName hitem]

theorem names_of_variableNames (h : variableNames item = .ok names) : Names item names := by
  unfold variableNames at h
  split at h
  · rw [eq_map_of_symbolNames h]
    exact .list _ names
  · obtain ⟨name, rfl⟩ : ∃ name, names = [name] := by
      have hlength := congrArg List.length (eq_map_of_symbolNames h)
      rw [List.length_map] at hlength
      exact List.length_eq_one_iff.mp hlength.symm
    obtain rfl := List.singleton_inj.mp (eq_map_of_symbolNames h)
    exact .one name

mutual

theorem expression_grammar (item : Sexp) {here : Loc} {node : Node}
    (h : expression file here item = .ok node) : Expression file here item node := by
  cases item with
  | list start items =>
    cases items with
    | nil => cases h
    | cons head args =>
      rw [expression] at h
      obtain ⟨name, hname, h⟩ := exists_of_bind_eq_ok h
      obtain ⟨nodes, hnodes, h⟩ := exists_of_bind_eq_ok h
      cases h
      rw [eq_symbol_of_symbolName hname]
      exact .call (expressions_grammar args hnodes)
  | symbol name =>
    cases h
    exact .symbol here name
  | integer value =>
    cases h
    exact .integer here value
  | text value =>
    cases h
    exact .text here value
  | bracketed items => cases h
  | quoted item => cases h
  | real value => cases h

theorem expressions_grammar (items : List Sexp) {here : Loc} {nodes : List Node}
    (h : expressions file here items = .ok nodes) : Expressions file here items nodes := by
  cases items with
  | nil =>
    cases h
    exact .nil here
  | cons item rest =>
    rw [expressions] at h
    obtain ⟨node, hnode, h⟩ := exists_of_bind_eq_ok h
    obtain ⟨others, hothers, h⟩ := exists_of_bind_eq_ok h
    cases h
    exact .cons (expression_grammar item hnode) (expressions_grammar rest hothers)

end

theorem exists_literal_of_armValue (h : armValue file here item = .ok node) :
    ∃ value loc, node = .literal value loc ∧ Expression file here item node := by
  rw [armValue] at h
  obtain ⟨read, hread, h⟩ := exists_of_bind_eq_ok h
  split at h
  · cases h
    exact ⟨_, _, rfl, expression_grammar item hread⟩
  · cases h

/-- A clause with the right head is a list that starts with it. -/
theorem exists_clause_of_formHead {head : String} (h : formHead item = .ok head) :
    ∃ start items, item = .list start (.symbol head :: items) := by
  unfold formHead at h
  split at h
  · rw [eq_symbol_of_symbolName h]
    exact ⟨_, _, rfl⟩
  · cases h

theorem exists_clauses_of_loopHeads {init post : Sexp} (h : loopHeads here init post = .ok ()) :
    (∃ start items, init = .list start (.symbol "init" :: items)) ∧
      ∃ start items, post = .list start (.symbol "post" :: items) := by
  unfold loopHeads at h
  obtain ⟨first, hfirst, h⟩ := exists_of_bind_eq_ok h
  split at h
  · rename_i hinit
    obtain ⟨second, hsecond, h⟩ := exists_of_bind_eq_ok h
    split at h
    · rename_i hpost
      exact ⟨exists_clause_of_formHead (hinit ▸ hfirst), exists_clause_of_formHead (hpost ▸ hsecond)⟩
    · cases h
  · cases h

theorem eq_nil_of_bare {head : String} {make : Loc → Node} {args : List Sexp} {node : Node}
    (h : bare head make here args = .ok node) : args = [] ∧ node = make here := by
  unfold bare at h
  split at h
  · cases h
    exact ⟨List.isEmpty_iff.mp ‹_›, rfl⟩
  · cases h

theorem declaration_grammar (h : declaration file (start.loc file) args = .ok node) :
    Statement file (.list start (.symbol "let" :: args)) node := by
  unfold declaration at h
  split at h
  · obtain ⟨names, hnames, h⟩ := exists_of_bind_eq_ok h
    cases h
    exact .declaration (names_of_variableNames hnames)
  · obtain ⟨names, hnames, h⟩ := exists_of_bind_eq_ok h
    obtain ⟨value, hvalue, h⟩ := exists_of_bind_eq_ok h
    cases h
    exact .initialised (names_of_variableNames hnames) (expression_grammar _ hvalue)
  · cases h

theorem assignment_grammar (h : assignment file (start.loc file) args = .ok node) :
    Statement file (.list start (.symbol "set" :: args)) node := by
  unfold assignment at h
  split at h
  · obtain ⟨names, hnames, h⟩ := exists_of_bind_eq_ok h
    obtain ⟨value, hvalue, h⟩ := exists_of_bind_eq_ok h
    cases h
    exact .assignment (names_of_variableNames hnames) (expression_grammar _ hvalue)
  · cases h

theorem expressionStatement_grammar
    (h : expressionStatement file (start.loc file) args = .ok node) :
    Statement file (.list start (.symbol "expr" :: args)) node := by
  unfold expressionStatement at h
  split at h
  · obtain ⟨value, hvalue, h⟩ := exists_of_bind_eq_ok h
    cases h
    exact .expression (expression_grammar _ hvalue)
  · cases h

mutual

/-- Whatever the reader takes for a statement is one. -/
theorem statement_grammar (form : Sexp) {node : Node} (h : statement file form = .ok node) :
    Statement file form node := by
  cases form with
  | list start items =>
    cases items with
    | nil => cases h
    | cons first args =>
      cases first with
      | symbol head =>
        unfold statement at h
        split at h
        · cases args with
          | nil => cases h
          | cons name rest =>
            obtain ⟨name, hname, h⟩ := exists_of_bind_eq_ok h
            obtain ⟨s, hs, h⟩ := exists_of_bind_eq_ok h
            obtain ⟨body, hbody, h⟩ := exists_of_bind_eq_ok h
            cases h
            rw [eq_symbol_of_symbolName hname]
            exact .function hs (statements_grammar _ rest hbody)
        · exact declaration_grammar h
        · exact assignment_grammar h
        · exact expressionStatement_grammar h
        · cases args with
          | nil => cases h
          | cons condition rest =>
            obtain ⟨node, hnode, h⟩ := exists_of_bind_eq_ok h
            obtain ⟨body, hbody, h⟩ := exists_of_bind_eq_ok h
            cases h
            exact .branch (expression_grammar _ hnode) (statements_grammar 0 rest hbody)
        · cases args with
          | nil => cases h
          | cons selector clauses =>
            obtain ⟨node, hnode, h⟩ := exists_of_bind_eq_ok h
            obtain ⟨⟨arms, fallback⟩, hclauses, h⟩ := exists_of_bind_eq_ok h
            cases h
            exact .switch (expression_grammar _ hnode) (switchClauses_grammar clauses hclauses)
        · match args, h with
          | [], h => cases h
          | [_], h => cases h
          | [_, _], h => cases h
          | init :: condition :: post :: rest, h =>
            obtain ⟨_, hheads, h⟩ := exists_of_bind_eq_ok h
            obtain ⟨inits, hinits, h⟩ := exists_of_bind_eq_ok h
            obtain ⟨node, hnode, h⟩ := exists_of_bind_eq_ok h
            obtain ⟨posts, hposts, h⟩ := exists_of_bind_eq_ok h
            obtain ⟨body, hbody, h⟩ := exists_of_bind_eq_ok h
            cases h
            obtain ⟨⟨_, _, hinit⟩, ⟨_, _, hpost⟩⟩ := exists_clauses_of_loopHeads hheads
            have hinits := clauseBody_grammar init hinits hinit
            have hposts := clauseBody_grammar post hposts hpost
            have hbody := statements_grammar 0 rest hbody
            rw [hinit, hpost]
            exact .loop hinits (expression_grammar _ hnode) hposts hbody
        · obtain ⟨body, hbody, h⟩ := exists_of_bind_eq_ok h
          cases h
          exact .block (statements_grammar 0 args hbody)
        · obtain ⟨rfl, rfl⟩ := eq_nil_of_bare h
          exact .breakOut start
        · obtain ⟨rfl, rfl⟩ := eq_nil_of_bare h
          exact .continueOn start
        · obtain ⟨rfl, rfl⟩ := eq_nil_of_bare h
          exact .leave start
        · cases h
      | _ => cases h
  | _ => cases h

theorem statements_grammar (skip : Nat) (items : List Sexp) {nodes : List Node}
    (h : statements file skip items = .ok nodes) : Statements file (items.drop skip) nodes := by
  cases items with
  | nil =>
    rw [statements] at h
    cases h
    rw [List.drop_nil]
    exact .nil
  | cons item rest =>
    cases skip with
    | zero =>
      rw [statements] at h
      obtain ⟨node, hnode, h⟩ := exists_of_bind_eq_ok h
      obtain ⟨others, hothers, h⟩ := exists_of_bind_eq_ok h
      cases h
      exact .cons (statement_grammar item hnode) (statements_grammar 0 rest hothers)
    | succ skip =>
      rw [statements] at h
      exact statements_grammar skip rest h

theorem clauseBody_grammar (item : Sexp) {nodes : List Node} (h : clauseBody file item = .ok nodes)
    {start : Position} {first : Sexp} {items : List Sexp} (hitem : item = .list start (first :: items)) :
    Statements file items nodes := by
  cases item with
  | list start' inner =>
    cases inner with
    | nil => cases hitem
    | cons first' rest =>
      rw [clauseBody] at h
      have hrest := statements_grammar 0 rest h
      cases hitem
      exact hrest
  | _ => cases hitem

theorem switchClauses_grammar (clauses : List Sexp) {here : Loc} {found fallback : Option Node}
    {arms : List Node} (h : switchClauses file here found clauses = .ok (arms, fallback)) :
    Clauses file here found clauses arms fallback := by
  cases clauses with
  | nil =>
    cases h
    exact .nil here found
  | cons clause rest =>
    cases clause with
    | list start items =>
      cases items with
      | nil => cases h
      | cons first items =>
        cases first with
        | symbol head =>
          unfold switchClauses at h
          split at h
          · rename_i hcase
            cases items with
            | nil => cases h
            | cons value items =>
              obtain ⟨read, hread, h⟩ := exists_of_bind_eq_ok h
              obtain ⟨body, hbody, h⟩ := exists_of_bind_eq_ok h
              obtain ⟨⟨others, _⟩, hothers, h⟩ := exists_of_bind_eq_ok h
              cases h
              obtain ⟨literal, loc, rfl, hvalue⟩ := exists_literal_of_armValue hread
              rw [hcase]
              exact .arm hvalue (statements_grammar 0 items hbody)
                (switchClauses_grammar rest hothers)
          · split at h
            · rename_i hdefault
              split at h
              · cases h
              · rename_i hnone
                obtain ⟨body, hbody, h⟩ := exists_of_bind_eq_ok h
                obtain rfl : found = none := by simpa using hnone
                rw [hdefault]
                exact .fallback (statements_grammar 0 items hbody)
                  (switchClauses_grammar rest h)
            · cases h
        | _ => cases h
    | _ => cases h

end

mutual

theorem expression_of_grammar {here : Loc} {item : Sexp} {node : Node}
    (h : Expression file here item node) : expression file here item = .ok node := by
  cases h with
  | call hargs =>
    rw [expression, expressions_of_grammar hargs]
    rfl
  | symbol | integer | text => rfl

theorem expressions_of_grammar {here : Loc} {items : List Sexp} {nodes : List Node}
    (h : Expressions file here items nodes) : expressions file here items = .ok nodes := by
  cases h with
  | nil => rfl
  | cons hitem hitems =>
    rw [expressions, expression_of_grammar hitem, expressions_of_grammar hitems]
    rfl

end

theorem symbolNames_map (expected : String) (names : List String) :
    symbolNames expected (names.map .symbol) = .ok names := by
  rw [symbolNames, mapM_eq_ok_iff]
  induction names with
  | nil => exact .nil
  | cons name names ih => exact .cons rfl ih

theorem variableNames_of_names (h : Names item names) :
    variableNames item = .ok names := by
  cases h with
  | one name => rfl
  | list start names => exact symbolNames_map _ names

theorem armValue_of_grammar {value : Literal} {loc : Loc}
    (h : Expression file here item (.literal value loc)) :
    armValue file here item = .ok (.literal value loc) := by
  rw [armValue, expression_of_grammar h]
  rfl

theorem statements_drop (skip : Nat) (items : List Sexp) :
    statements file skip items = statements file 0 (items.drop skip) := by
  induction items generalizing skip with
  | nil => rw [List.drop_nil, statements, statements]
  | cons item items ih =>
    cases skip with
    | zero => rfl
    | succ skip => rw [statements, ih, List.drop_succ_cons]

theorem sizeOf_drop_le (items : List Sexp) (n : Nat) : sizeOf (items.drop n) ≤ sizeOf items := by
  induction items generalizing n with
  | nil => rw [List.drop_nil]
  | cons item rest ih =>
    cases n with
    | zero => exact Nat.le_refl _
    | succ n =>
      rw [List.drop_succ_cons, List.cons.sizeOf_spec]
      exact (ih n).trans (Nat.le_add_left _ _)

mutual

/-- The reader takes every statement of the grammar. -/
theorem statement_of_grammar (item : Sexp) {node : Node} (h : Statement file item node) :
    statement file item = .ok node := by
  cases h with
  | @function start name rest s body hsignature hbody =>
    have hsize := sizeOf_drop_le rest s.clauses
    have hread := statements_of_grammar (rest.drop s.clauses) hbody
    rw [← statements_drop] at hread
    rw [statement, symbolName, hsignature]
    change (statements file s.clauses rest >>= _) = _
    rw [hread]
    rfl
  | declaration hnames =>
    rw [statement, declaration, variableNames_of_names hnames]
    rfl
  | initialised hnames hvalue =>
    rw [statement, declaration, variableNames_of_names hnames, expression_of_grammar hvalue]
    rfl
  | assignment hnames hvalue =>
    rw [statement, assignment, variableNames_of_names hnames, expression_of_grammar hvalue]
    rfl
  | expression hvalue =>
    rw [statement, expressionStatement, expression_of_grammar hvalue]
    rfl
  | branch hcondition hbody =>
    rw [statement, expression_of_grammar hcondition, statements_of_grammar _ hbody]
    rfl
  | switch hselector hclauses =>
    rw [statement, expression_of_grammar hselector, switchClauses_of_grammar _ hclauses]
    rfl
  | loop hinit hcondition hpost hbody =>
    rw [statement, expression_of_grammar hcondition, clauseBody, clauseBody,
      statements_of_grammar _ hinit, statements_of_grammar _ hpost, statements_of_grammar _ hbody]
    rfl
  | block hbody =>
    rw [statement, statements_of_grammar _ hbody]
    rfl
  | breakOut | continueOn | leave =>
    rw [statement]
    rfl
termination_by sizeOf item

theorem statements_of_grammar (items : List Sexp) {nodes : List Node}
    (h : Statements file items nodes) : statements file 0 items = .ok nodes := by
  cases h with
  | nil => rfl
  | cons hitem hitems =>
    rw [statements, statement_of_grammar _ hitem, statements_of_grammar _ hitems]
    rfl
termination_by sizeOf items

theorem switchClauses_of_grammar (clauses : List Sexp) {here : Loc} {found fallback : Option Node}
    {arms : List Node} (h : Clauses file here found clauses arms fallback) :
    switchClauses file here found clauses = .ok (arms, fallback) := by
  cases h with
  | nil => rfl
  | arm hvalue hbody hrest =>
    rw [switchClauses, armValue_of_grammar hvalue, statements_of_grammar _ hbody,
      switchClauses_of_grammar _ hrest]
    rfl
  | fallback hbody hrest =>
    unfold switchClauses
    rw [if_neg (by decide), if_pos rfl, if_neg (by decide), statements_of_grammar _ hbody]
    exact switchClauses_of_grammar _ hrest
termination_by sizeOf clauses

end

end YulTaint.Reader
