import Mathlib.Tactic
import YulTaint.Proofs.Flow.Fresh
import YulTaint.Proofs.Graph.Growth
import YulTaint.Proofs.Word.Range

/-!
What the walk of a scope can do, one move at a time. A move adds a variable, a
block, an edge, a definition, an application or a call site to the scope, or
queues functions. It is guarded by what the walk knows at that point, so that
every invariant of the walk is a case analysis over the moves.
-/

namespace YulTaint.Flow

/-- A function that was walked, is being walked, or is queued. -/
def WalkState.Knows (s : WalkState) (done : List FunctionEntry) (e : FunctionEntry) : Prop :=
  e ∈ done ∨ ∃ f ∈ s.pending, f.entry = e

/-- How many functions a queue stands for, those inside its bodies included. -/
def queueWeight (fs : List PendingFunction) : Nat :=
  (fs.map fun f => f.entry.body.functionCount + 1).sum

end YulTaint.Flow

namespace YulTaint

def Definition.HoldsWord : Definition → Prop
  | .constant _ value => IsWord value
  | _ => True

/-- An application to variables of a scope, as many of them as the builtin
takes. -/
structure Application.Fits (a : Application) (g : Graph) (sc : String) : Prop where
  node : g.Owns sc a.node
  operands : ∀ id ∈ a.operands, g.OwnsVariable sc id
  block : g.Owns sc a.block
  arity : ∀ b, Builtin.lookup? a.name = some b → a.operands.length = b.arity

/-- An open call of a function from a scope, with as many arguments and results
as the function has parameters and return variables. -/
structure CallSite.Fits (site : CallSite) (g : Graph) (sc : String) (e : Flow.FunctionEntry) :
    Prop where
  caller : site.caller = sc
  callee : site.callee = e.scope
  arguments : ∀ id ∈ site.arguments, g.Owns sc id
  results : ∀ id ∈ site.results, g.Owns sc id
  block : g.Owns sc site.block
  argumentCount : site.arguments.length = e.params.length
  resultCount : site.results.length = e.returns.length
  isOpen : site.resolved = false

namespace Flow

/-- Functions that a block queues. Their scope names are new and distinct, and
they see functions that the walk knows. -/
structure Queued (s : WalkState) (done : List FunctionEntry) (fs : List PendingFunction) :
    Prop where
  distinct : (fs.map (·.entry.scope)).Nodup
  fresh : ∀ f ∈ fs, f.entry.scope ∉ s.scopeNames ∧ f.entry.scope ≠ mainScope
  visible : ∀ f ∈ fs, ∀ frame ∈ f.visible, ∀ e ∈ frame,
    s.Knows done e ∨ ∃ f' ∈ fs, f'.entry = e

/-- A move in a scope. The number is the weight of the functions queued. -/
inductive Move (done : List FunctionEntry) (sc : String) : Nat → WalkState → WalkState → Prop
  | newVariable {s : WalkState} {block : NodeId} (name : String) (loc : Loc)
      (hblock : s.graph.Owns sc block) (hfree : isBound s.graph sc name = false) :
      Move done sc 0 s
        { s with graph :=
            (s.graph.addVariable sc name (some loc)).addEdge sc block s.graph.size }
  | newBlock {s : WalkState} {block : NodeId} (name : String) (loc : Loc)
      (hblock : s.graph.Owns sc block) :
      Move done sc 0 s
        { s with graph := (s.graph.addBlock sc name (some loc)).addEdge sc block s.graph.size }
  | addEdge {s : WalkState} {a b : NodeId} (ha : s.graph.Owns sc a) (hb : s.graph.Owns sc b) :
      Move done sc 0 s { s with graph := s.graph.addEdge sc a b }
  | define {s : WalkState} {d : Definition} (hd : s.graph.OwnsVariable sc d.target)
      (hword : d.HoldsWord) :
      Move done sc 0 s { s with definitions := s.definitions ++ [d] }
  | record {s : WalkState} {a : Application} (ha : a.Fits s.graph sc) :
      Move done sc 0 s { s with applications := s.applications ++ [a] }
  | addSite {s : WalkState} {site : CallSite} {e : FunctionEntry} (he : s.Knows done e)
      (hsite : site.Fits s.graph sc e) :
      Move done sc 0 s { s with graph := s.graph.addSite site }
  | queue {s : WalkState} {fs : List PendingFunction} {names : List String}
      (hfs : Queued s done fs)
      (hnames : ∀ name, name ∈ names ↔ name ∈ fs.map (·.entry.scope) ∨ name ∈ s.scopeNames) :
      Move done sc (queueWeight fs) s
        { s with pending := s.pending ++ fs, scopeNames := names }
  | count {s : WalkState} (counter : Nat) : Move done sc 0 s { s with counter }

/-- A run of moves, with the weight of all functions queued. -/
inductive Moves (done : List FunctionEntry) (sc : String) : Nat → WalkState → WalkState → Prop
  | refl (s : WalkState) : Moves done sc 0 s s
  | step {k l : Nat} {s t u : WalkState} (h : Move done sc k s t) (rest : Moves done sc l t u) :
      Moves done sc (k + l) s u

section Moves

variable {done : List FunctionEntry} {sc : String} {k l : Nat} {s t u : WalkState}

theorem Move.moves (h : Move done sc k s t) : Moves done sc k s t :=
  .step h (.refl t)

theorem Moves.trans (h : Moves done sc k s t) (h' : Moves done sc l t u) :
    Moves done sc (k + l) s u := by
  induction h with
  | refl => rwa [Nat.zero_add]
  | step h _ ih =>
    rw [Nat.add_assoc]
    exact .step h (ih h')

/-- The block and the node it governs are joined in the graph that has the new
node. -/
theorem attached_of_mem {g : Graph} {scope : Scope} {a b : NodeId} (ha : a ∈ scope.nodes)
    (hb : b ∈ scope.nodes) : Edge.Attached ⟨a, b⟩ g scope :=
  ⟨Or.inl ha, Or.inl hb, Or.inl ha⟩

/-- A move only adds to its scope. -/
theorem Move.growth {scope : Scope} (hg : s.graph.Coherent) (hs : s.graph.scope? sc = some scope)
    (h : Move done sc k s t) : Graph.Growth sc s.graph t.graph ∧ t.graph.Coherent := by
  cases h with
  | newVariable name loc hblock hfree =>
    have hgrowth := hg.growth_addVariable sc name (some loc)
    have hcoh := hg.addVariable hs name (some loc)
    have hs' := Graph.scope?_addVariable_self hs name (some loc)
    refine ⟨hgrowth.trans (hcoh.growth_addEdge hs' _ _), hcoh.addEdge hs' ?_⟩
    exact attached_of_mem (List.mem_append_left _ (hblock.mem hs)) (by simp)
  | newBlock name loc hblock =>
    have hgrowth := hg.growth_addBlock sc name (some loc)
    have hcoh := hg.addBlock hs name (some loc)
    have hs' := Graph.scope?_addBlock_self hs name (some loc)
    refine ⟨hgrowth.trans (hcoh.growth_addEdge hs' _ _), hcoh.addEdge hs' ?_⟩
    exact attached_of_mem (List.mem_append_left _ (hblock.mem hs)) (by simp)
  | addEdge ha hb =>
    refine ⟨hg.growth_addEdge hs _ _, hg.addEdge hs ?_⟩
    exact attached_of_mem (ha.mem hs) (hb.mem hs)
  | define hd hword => exact ⟨hg.growth_refl sc, hg⟩
  | record ha => exact ⟨hg.growth_refl sc, hg⟩
  | addSite he hsite =>
    have hcaller := hsite.caller
    subst hcaller
    refine ⟨hg.growth_addSite _, hg.addSite hs ⟨(Graph.name_of_scope? hs).symm, ?_, ?_, ?_⟩⟩
    · exact fun id hid => (hsite.arguments id hid).mem hs
    · exact fun id hid => (hsite.results id hid).mem hs
    · exact hsite.block.mem hs
  | queue hfs hnames => exact ⟨hg.growth_refl sc, hg⟩
  | count counter => exact ⟨hg.growth_refl sc, hg⟩

end Moves

end Flow

end YulTaint
