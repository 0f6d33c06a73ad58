import Mathlib.Tactic
import YulTaint.Proofs.Program.Address

/-!
Which function a call refers to, by the text alone. Functions are found block by
block: those of a block when it is entered, those inside the body of a function
when its turn comes, first in, first out. A call refers to the function of its
name that a block around it defines, be it a block of the same function or one
around that function.
-/

namespace YulTaint

namespace Lexical

structure Entry where
  place : Place
  name : String
  params : List String
  returns : List String
  body : Node
  loc : Loc

def Entry.node (e : Entry) : Node :=
  .function e.name e.params e.returns e.body e.loc

abbrev Frame := List Entry

/-- The functions that the statements of a block define directly, the block
standing at a place and the statements from a number on. -/
def entries (p : Place) : Nat → List Node → Frame
  | _, [] => []
  | i, .function name params returns body loc :: rest =>
    { place := p ++ [i], name, params, returns, body, loc } :: entries p (i + 1) rest
  | i, _ :: rest => entries p (i + 1) rest

/-- The function of a name in the innermost of the blocks around a place that
define one. -/
def resolve (visible : List Frame) (name : String) : Option Entry :=
  visible.findSome? fun frame => frame.find? (·.name = name)

structure Pending where
  entry : Entry
  visible : List Frame

/-- A call, at its place, with the place of the function that it refers to. If
there is none, a builtin is meant. -/
structure Call where
  place : Place
  name : String
  arguments : Nat
  loc : Loc
  target : Option Place

def callAt (visible : List Frame) (p : Place) (name : String) (args : List Node) (loc : Loc) :
    Call :=
  { place := p, name, arguments := args.length, loc,
    target := (resolve visible name).map (·.place) }

/-- What is met on the way through the code of one scope. -/
inductive Event where
  | hoist (f : Pending)
  | call (c : Call)

def Event.place : Event → Place
  | .hoist f => f.entry.place
  | .call c => c.place

def Event.pending? : Event → Option Pending
  | .hoist f => some f
  | .call _ => none

def Event.call? : Event → Option Call
  | .hoist _ => none
  | .call c => some c

def entering (visible : List Frame) (frame : Frame) : List Event :=
  frame.map fun entry => .hoist { entry, visible := frame :: visible }

mutual

/-- What is met in a node, in order: the functions of a block first, the
arguments of a call before the call. The body of a function is left out. -/
def events (visible : List Frame) (p : Place) : Node → List Event
  | .block items _ | .program _ items _ =>
    entering visible (entries p 0 items) ++ eventsAll (entries p 0 items :: visible) p 0 items
  | .call name args loc =>
    eventsAll visible p 0 args ++ [.call (callAt visible p name args loc)]
  | .declaration _ value _ => eventsOption visible (p ++ [0]) value
  | .assignment _ value _ | .expression value _ => events visible (p ++ [0]) value
  | .branch condition body _ =>
    events visible (p ++ [0]) condition ++ events visible (p ++ [1]) body
  | .switch selector arms fallback _ =>
    events visible (p ++ [0]) selector ++ eventsAll visible p 1 arms ++
      eventsOption visible (p ++ [1 + arms.length]) fallback
  | .caseArm _ body _ => events visible (p ++ [0]) body
  | .loop init condition post body _ =>
    events visible (p ++ [0]) init ++ events visible (p ++ [1]) condition ++
      events visible (p ++ [2]) body ++ events visible (p ++ [3]) post
  | _ => []

def eventsAll (visible : List Frame) (p : Place) : Nat → List Node → List Event
  | _, [] => []
  | i, n :: rest => events visible (p ++ [i]) n ++ eventsAll visible p (i + 1) rest

def eventsOption (visible : List Frame) (p : Place) : Option Node → List Event
  | none => []
  | some n => events visible p n

end

def hoisted (es : List Event) : List Pending :=
  es.filterMap Event.pending?

def calls (es : List Event) : List Call :=
  es.filterMap Event.call?

def Pending.events (f : Pending) : List Event :=
  Lexical.events f.visible (f.entry.place ++ [0]) f.entry.body

/-- Functions are served in the order in which they were met: the one that has
waited longest is next, and the functions in its body come last. -/
inductive Serves : List Pending → List Pending → Prop
  | nil : Serves [] []
  | next {f : Pending} {rest order : List Pending}
      (h : Serves (rest ++ hoisted f.events) order) : Serves (f :: rest) (f :: order)

end Lexical

/-- A function of that name is defined in a block around a place. -/
def Node.DefinesAround (root : Node) (x : Place) (name : String) (d : Place) : Prop :=
  ∃ q i, d = q ++ [i] ∧ q <+: x ∧
    ∃ params returns body loc, root.at? d = some (.function name params returns body loc)

def Node.IsFunctionAt (root : Node) (d : Place) : Prop :=
  ∃ n, root.at? d = some n ∧ n.IsFunction

/-- A place belongs to the code at another one: no function stands in between. -/
def Node.IsWithin (root : Node) (x d : Place) : Prop :=
  d <+: x ∧ ∀ q, d <+: q → q <+: x → q ≠ d → q ≠ x → ¬ root.IsFunctionAt q

/-- A node of the right sort for its place. -/
def Sight.Holds (v : Sight) : Node → Prop
  | .literal .. | .identifier .. => True
  | .call _ args _ => v.AreOperands args
  | .program _ items _ => v.IsScope items
  | .caseArm _ body _ => v.IsBlock body
  | n => v.IsStatement n

namespace Sight

variable {v : Sight} {n : Node}

theorem IsStatement.holds (h : v.IsStatement n) : v.Holds n := by
  cases n with
  | literal | identifier | call | program | caseArm => exact h.elim
  | _ => exact h

theorem IsOperand.holds (h : v.IsOperand n) : v.Holds n ∧ ¬ n.IsFunction := by
  cases n with
  | literal | identifier => exact ⟨trivial, id⟩
  | call name args loc => exact ⟨h.2, id⟩
  | _ => exact h.elim

theorem Gives.holds {count : Nat} (h : v.Gives count n) :
    v.Holds n ∧ ¬ n.IsFunction := by
  cases n with
  | call name args loc => exact ⟨h.2, id⟩
  | _ => exact IsOperand.holds h.2

theorem IsBlock.exists_eq (h : v.IsBlock n) :
    ∃ items loc, n = .block items loc ∧ v.IsScope items := by
  cases n with
  | block items loc => exact ⟨items, loc, rfl, h⟩
  | _ => exact h.elim

theorem IsBlock.holds (h : v.IsBlock n) : v.Holds n ∧ ¬ n.IsFunction := by
  obtain ⟨items, loc, rfl, hscope⟩ := h.exists_eq
  exact ⟨hscope, id⟩

theorem AreOperands.mem {es : List Node} (h : v.AreOperands es) {e : Node} (he : e ∈ es) :
    v.IsOperand e := by
  induction es with
  | nil => cases he
  | cons first rest ih =>
    rcases List.mem_cons.mp he with rfl | he
    · exact h.1
    · exact ih h.2 he

theorem IsInit.holds (h : v.IsInit n) : v.Holds n ∧ ¬ n.IsFunction := by
  cases n with
  | block | program => exact ⟨h, id⟩
  | _ => exact h.elim

theorem AreArms.mem {arms : List Node} (h : v.AreArms arms) {arm : Node} (harm : arm ∈ arms) :
    v.Holds arm ∧ ¬ arm.IsFunction := by
  induction arms with
  | nil => cases harm
  | cons first rest ih =>
    cases first with
    | caseArm value body loc =>
      rcases List.mem_cons.mp harm with rfl | harm
      · exact ⟨h.1, id⟩
      · exact ih h.2 harm
    | _ => exact h.elim

/-- A statement sees the variables that the statements before it declare. -/
theorem AreStatements.part {items : List Node} (h : v.AreStatements items) {j : Nat} {item : Node}
    (hitem : items[j]? = some item) :
    ∃ w : Sight, w.IsStatement item ∧ w.functions = v.functions ∧
      ∀ name, name ∈ w.locals ↔ name ∈ (items.take j).flatMap Node.declares ∨ name ∈ v.locals := by
  induction items generalizing v j with
  | nil => cases hitem
  | cons first rest ih =>
    cases j with
    | zero =>
      cases hitem
      exact ⟨v, h.1, rfl, fun name => by simp⟩
    | succ j =>
      obtain ⟨w, hw, hfunctions, hlocals⟩ := ih h.2 hitem
      refine ⟨w, hw, hfunctions, fun name => ?_⟩
      simp only [hlocals, declaring, List.take_succ_cons, List.flatMap_cons, List.mem_append]
      tauto

end Sight

theorem Node.IsWellFormed.holds {n : Node} (h : n.IsWellFormed) :
    Sight.Holds {} n ∧ ¬ n.IsFunction := by
  cases n with
  | program name items loc => exact ⟨h, id⟩
  | _ => exact h.elim

def Node.opens : Node → List Signature
  | .block items _ | .program _ items _ => signatures items
  | _ => []

/-- The variables of its own that a node shows to one of its parts: a statement of a
block is shown those declared before it, the rest of a loop those declared in its
first part, and the body of a function its parameters and return variables. -/
def Node.binds (j : Nat) : Node → List String
  | .block items _ | .program _ items _ => (items.take j).flatMap Node.declares
  | .loop init _ _ _ _ => if j = 0 then [] else init.items.flatMap Node.declares
  | .function _ params returns _ _ => params ++ returns
  | _ => []

def Node.IsScope : Node → Prop
  | .block .. | .program .. => True
  | _ => False

namespace Sight

variable {v : Sight}

/-- The parts of a well-formed node are well formed. They see the functions of a
block and the variables declared before them. Only blocks define functions. -/
theorem Holds.getElem?_parts {n part : Node} (h : v.Holds n) (hn : ¬ n.IsFunction) {j : Nat}
    (hpart : n.parts[j]? = some part) :
    ∃ w : Sight, w.Holds part ∧ w.functions = n.opens ++ v.functions ∧
      (∀ name, name ∈ w.locals ↔ name ∈ n.binds j ∨ name ∈ v.locals) ∧
      (part.IsFunction → n.IsScope) := by
  have hplain {w : Sight} (hw : w.Holds part ∧ ¬ part.IsFunction) (hopens : n.opens = [])
      (hfunctions : w.functions = v.functions) (hlocals : w.locals = n.binds j ++ v.locals) :
      ∃ w : Sight, w.Holds part ∧ w.functions = n.opens ++ v.functions ∧
        (∀ name, name ∈ w.locals ↔ name ∈ n.binds j ∨ name ∈ v.locals) ∧
        (part.IsFunction → n.IsScope) := by
    refine ⟨w, hw.1, ?_, fun name => ?_, fun hpart => absurd hpart hw.2⟩
    · rw [hopens, hfunctions, List.nil_append]
    · rw [hlocals, List.mem_append]
  have hmem := List.mem_of_getElem? hpart
  cases n with
  | block items loc | program name items loc =>
    obtain ⟨w, hw, hfunctions, hlocals⟩ := h.2.part hpart
    exact ⟨w, hw.holds, hfunctions, hlocals, fun _ => trivial⟩
  | call name args loc => exact hplain (AreOperands.mem h hmem).holds rfl rfl rfl
  | declaration names value loc =>
    exact hplain (h.2.2.2 part (Option.mem_toList.mp hmem)).holds rfl rfl rfl
  | assignment names value loc =>
    obtain rfl := List.mem_singleton.mp hmem
    exact hplain h.2.2.2.holds rfl rfl rfl
  | expression value loc =>
    obtain rfl := List.mem_singleton.mp hmem
    exact hplain (Gives.holds h) rfl rfl rfl
  | branch condition body loc =>
    rcases List.mem_cons.mp hmem with rfl | hmem
    · exact hplain h.1.holds rfl rfl rfl
    · obtain rfl := List.mem_singleton.mp hmem
      exact hplain h.2.holds rfl rfl rfl
  | switch selector arms fallback loc =>
    obtain ⟨_, hselector, _, harms, hfallback⟩ := h
    rcases List.mem_cons.mp hmem with rfl | hmem
    · exact hplain hselector.holds rfl rfl rfl
    rcases List.mem_append.mp hmem with hmem | hmem
    · exact hplain (harms.mem hmem) rfl rfl rfl
    · obtain rfl := Option.mem_toList.mp hmem
      exact hplain (IsBlock.holds hfallback) rfl rfl rfl
  | caseArm value body loc =>
    obtain rfl := List.mem_singleton.mp hmem
    exact hplain (IsBlock.holds h) rfl rfl rfl
  | loop init condition post body loc =>
    obtain ⟨hinit, hcondition, hbody, hpost⟩ := h
    match j, hpart with
    | 0, rfl => exact hplain hinit.holds rfl rfl rfl
    | 1, rfl => exact hplain hcondition.holds rfl rfl rfl
    | 2, rfl => exact hplain hbody.holds rfl rfl rfl
    | 3, rfl => exact hplain hpost.holds rfl rfl rfl
  | function => exact absurd trivial hn
  | _ => cases hmem

theorem Holds.part {n part : Node} (h : v.Holds n) (hn : ¬ n.IsFunction) (hpart : part ∈ n.parts) :
    ∃ w : Sight, w.Holds part ∧ w.functions = n.opens ++ v.functions ∧
      (part.IsFunction → n.IsScope) := by
  obtain ⟨j, hj⟩ := List.mem_iff_getElem?.mp hpart
  obtain ⟨w, hw, hfunctions, _, honly⟩ := h.getElem?_parts hn hj
  exact ⟨w, hw, hfunctions, honly⟩

end Sight

namespace Lexical

def frameOf (p : Place) : Node → Frame
  | .block items _ | .program _ items _ => entries p 0 items
  | _ => []

def innerOf (visible : List Frame) (p : Place) : Node → List Frame
  | .block items _ | .program _ items _ => entries p 0 items :: visible
  | _ => visible

def callOf (visible : List Frame) (p : Place) : Node → List Event
  | .call name args loc => [.call (callAt visible p name args loc)]
  | _ => []

theorem eventsAll_append (visible : List Frame) (p : Place) (i : Nat) (first rest : List Node) :
    eventsAll visible p i (first ++ rest) =
      eventsAll visible p i first ++ eventsAll visible p (i + first.length) rest := by
  induction first generalizing i with
  | nil => rfl
  | cons n first ih =>
    have hnext : i + (n :: first).length = i + 1 + first.length := by
      rw [List.length_cons]
      omega
    rw [List.cons_append, eventsAll, eventsAll, ih, hnext, List.append_assoc]

theorem eventsOption_eq (visible : List Frame) (p : Place) (i : Nat) (o : Option Node) :
    eventsOption visible (p ++ [i]) o = eventsAll visible p i o.toList := by
  cases o with
  | none => rfl
  | some n => exact (List.append_nil _).symm

/-- A block is entered, then its parts follow. -/
theorem events_eq {n : Node} (hn : ¬ n.IsFunction) (visible : List Frame) (p : Place) :
    events visible p n = entering visible (frameOf p n) ++
      eventsAll (innerOf visible p n) p 0 n.parts ++ callOf visible p n := by
  cases n with
  | block items loc | program name items loc => exact (List.append_nil _).symm
  | declaration names value loc =>
    exact (eventsOption_eq visible p 0 value).trans (List.append_nil _).symm
  | switch selector arms fallback loc =>
    have hparts : eventsAll visible p 0 (selector :: (arms ++ fallback.toList)) =
        events visible (p ++ [0]) selector ++ eventsAll visible p 1 arms ++
          eventsOption visible (p ++ [1 + arms.length]) fallback := by
      rw [eventsAll, eventsAll_append, eventsOption_eq, List.append_assoc]
    exact hparts.symm.trans (List.append_nil _).symm
  | function => exact absurd trivial hn
  | call => rfl
  | _ => simp [events, eventsAll, entering, frameOf, innerOf, callOf, Node.parts]

theorem events_of_isFunction {n : Node} (hn : n.IsFunction) (visible : List Frame) (p : Place) :
    events visible p n = [] := by
  cases n with
  | function => rfl
  | _ => exact hn.elim

theorem mem_eventsAll {visible : List Frame} {p : Place} {i : Nat} {ns : List Node} {e : Event}
    (h : e ∈ eventsAll visible p i ns) :
    ∃ j n, ns[j]? = some n ∧ e ∈ events visible (p ++ [i + j]) n := by
  induction ns generalizing i with
  | nil => cases h
  | cons n rest ih =>
    rcases List.mem_append.mp h with h | h
    · exact ⟨0, n, rfl, h⟩
    · obtain ⟨j, m, hm, he⟩ := ih h
      refine ⟨j + 1, m, hm, ?_⟩
      rwa [Nat.add_comm j 1, ← Nat.add_assoc]

theorem entries_of_isFunction {n : Node} (hn : n.IsFunction) (p : Place) (i : Nat)
    (rest : List Node) : ∃ e : Entry, e.node = n ∧ e.place = p ++ [i] ∧
      entries p i (n :: rest) = e :: entries p (i + 1) rest := by
  cases n with
  | function => exact ⟨_, rfl, rfl, rfl⟩
  | _ => exact hn.elim

theorem entries_of_not_isFunction {n : Node} (hn : ¬ n.IsFunction) (p : Place) (i : Nat)
    (rest : List Node) : entries p i (n :: rest) = entries p (i + 1) rest := by
  cases n with
  | function => exact absurd trivial hn
  | _ => rfl

theorem isFunction_node (e : Entry) : e.node.IsFunction :=
  trivial

theorem Entry.ext_node {e e' : Entry} (hnode : e.node = e'.node) (hplace : e.place = e'.place) :
    e = e' := by
  obtain ⟨place, name, params, returns, body, loc⟩ := e
  obtain ⟨place', name', params', returns', body', loc'⟩ := e'
  cases hnode
  cases hplace
  rfl

/-- The functions of a block stand where its statements define them. -/
theorem mem_entries {p : Place} {i : Nat} {ns : List Node} {e : Entry} :
    e ∈ entries p i ns ↔ ∃ j, ns[j]? = some e.node ∧ e.place = p ++ [i + j] := by
  induction ns generalizing i with
  | nil => simp [entries]
  | cons n rest ih =>
    have hstep : (∃ j, (n :: rest)[j]? = some e.node ∧ e.place = p ++ [i + j]) ↔
        (n = e.node ∧ e.place = p ++ [i]) ∨ e ∈ entries p (i + 1) rest := by
      rw [ih]
      constructor
      · rintro ⟨j, hj, hplace⟩
        cases j with
        | zero => exact Or.inl ⟨Option.some.inj hj, hplace⟩
        | succ j => exact Or.inr ⟨j, hj, by rw [hplace, Nat.add_right_comm, Nat.add_assoc]⟩
      · rintro (⟨rfl, hplace⟩ | ⟨j, hj, hplace⟩)
        · exact ⟨0, rfl, hplace⟩
        · exact ⟨j + 1, hj, by rw [hplace, Nat.add_right_comm, Nat.add_assoc]⟩
    rw [hstep]
    by_cases hn : n.IsFunction
    · obtain ⟨first, rfl, hplace, hentries⟩ := entries_of_isFunction hn p i rest
      rw [hentries, List.mem_cons]
      refine or_congr_left ⟨?_, fun ⟨hnode, hplace'⟩ => ?_⟩
      · rintro rfl
        exact ⟨rfl, hplace⟩
      · exact Entry.ext_node hnode.symm (hplace'.trans hplace.symm)
    · rw [entries_of_not_isFunction hn]
      refine (or_iff_right fun h => hn ?_).symm
      exact h.1 ▸ isFunction_node e

theorem map_name_entries (p : Place) (i : Nat) (ns : List Node) :
    (entries p i ns).map (·.name) = (signatures ns).map (·.name) := by
  induction ns generalizing i with
  | nil => rfl
  | cons n rest ih =>
    cases n with
    | function => exact congrArg (_ :: ·) (ih (i + 1))
    | _ => exact ih (i + 1)

theorem frameOf_eq {n : Node} {v : Sight} (h : v.Holds n) (hn : ¬ n.IsFunction) (p : Place) :
    frameOf p n = entries p 0 n.parts := by
  by_cases hscope : n.IsScope
  · cases n with
    | block | program => rfl
    | _ => exact hscope.elim
  · have hnone : frameOf p n = [] := by
      cases n with
      | block | program => exact absurd trivial hscope
      | _ => rfl
    rw [hnone]
    refine (List.eq_nil_iff_forall_not_mem.mpr fun e he => hscope ?_).symm
    obtain ⟨j, hj, _⟩ := mem_entries.mp he
    obtain ⟨w, _, _, honly⟩ := h.part hn (List.mem_of_getElem? hj)
    exact honly (isFunction_node e)

end Lexical

end YulTaint
