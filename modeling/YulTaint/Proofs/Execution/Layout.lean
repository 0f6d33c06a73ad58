import YulTaint.Proofs.Execution.Code

/-!
What the walk over code writes down, read off the code itself: the nodes that it
creates, in order, the edges that do not depend on constants, the ways in which
variables get their values, the applications of builtins and the call sites.
-/

namespace YulTaint.Execution

/-- Where code stands in the flow graph: its scope and that scope's root block,
the block that governs the code, and that of the innermost loop. -/
structure Region where
  scope : String
  root : NodeId
  block : NodeId
  loop : Option NodeId := none

namespace Region

def under (p : Region) (targets : List NodeId) : List Edge :=
  targets.map fun target => ⟨p.block, target⟩

def jump (p : Region) (target : NodeId) : List Edge :=
  if p.block = target then [] else [⟨p.block, target⟩]

def looping (p : Region) (block : NodeId) : Region :=
  { p with block, loop := some block }

end Region

@[ext]
structure Layout where
  params : List NodeId := []
  returns : List NodeId := []
  nodes : List NodeId := []
  /-- Which of the nodes are blocks. -/
  blocks : List NodeId := []
  edges : List Edge := []
  definitions : List Definition := []
  applications : List Application := []
  sites : List CallSite := []
  /-- The loops around jumps to the end of a round or out of a loop. -/
  jumps : List (Option NodeId) := []
  /-- The conditions of loops. -/
  conditions : List Term := []

namespace Layout

instance : Append Layout where
  append a b :=
    { params := a.params ++ b.params
      returns := a.returns ++ b.returns
      nodes := a.nodes ++ b.nodes
      blocks := a.blocks ++ b.blocks
      edges := a.edges ++ b.edges
      definitions := a.definitions ++ b.definitions
      applications := a.applications ++ b.applications
      sites := a.sites ++ b.sites
      jumps := a.jumps ++ b.jumps
      conditions := a.conditions ++ b.conditions }

variable (a b : Layout)

@[simp] theorem params_append : (a ++ b).params = a.params ++ b.params := rfl
@[simp] theorem returns_append : (a ++ b).returns = a.returns ++ b.returns := rfl
@[simp] theorem nodes_append : (a ++ b).nodes = a.nodes ++ b.nodes := rfl
@[simp] theorem blocks_append : (a ++ b).blocks = a.blocks ++ b.blocks := rfl
@[simp] theorem edges_append : (a ++ b).edges = a.edges ++ b.edges := rfl
@[simp] theorem definitions_append : (a ++ b).definitions = a.definitions ++ b.definitions := rfl
@[simp] theorem applications_append :
    (a ++ b).applications = a.applications ++ b.applications := rfl
@[simp] theorem sites_append : (a ++ b).sites = a.sites ++ b.sites := rfl
@[simp] theorem jumps_append : (a ++ b).jumps = a.jumps ++ b.jumps := rfl
@[simp] theorem conditions_append : (a ++ b).conditions = a.conditions ++ b.conditions := rfl

end Layout

def Region.governed (p : Region) (condition block : NodeId) : Layout :=
  { nodes := [block], blocks := [block], edges := [⟨p.block, block⟩, ⟨condition, block⟩] }

def Region.application (p : Region) (node : NodeId) (name : String) (operands : List NodeId) :
    Layout :=
  { definitions := [.application node name operands]
    applications := [{ node, name, operands, block := p.block }] }

def Region.site (p : Region) (function : String) (arguments results : List NodeId) (loc : Loc) :
    Layout :=
  { definitions := results.map .arbitrary
    sites := [{ caller := p.scope, callee := function, arguments, results, block := p.block,
                loc := some loc }] }

def Region.declare (p : Region) (targets : List NodeId) : Layout :=
  { nodes := targets, edges := p.under targets }

/-- A value that goes into variables: the block governs them, and the value
flows into them. -/
def Region.assign (p : Region) (targets : List NodeId) (sources : List NodeId)
    (definitions : List Definition) : Layout :=
  { edges := p.under targets ++ sources.flatMap fun source => targets.map fun t => ⟨source, t⟩
    definitions }

mutual

def Term.layout (p : Region) : Term → Layout
  | .literal node value => p.declare [node] ++ { definitions := [.constant node value] }
  | .read _ => {}
  | .apply node name args =>
    Term.layouts p args ++ p.declare [node] ++ p.application node name (args.map (·.node))
  | .call node function args loc =>
    Term.layouts p args ++ p.declare [node] ++
      p.site function (args.map (·.node)) [node] loc

def Term.layouts (p : Region) : List Term → Layout
  | [] => {}
  | t :: rest => t.layout p ++ Term.layouts p rest

end

def Term.tested (p : Region) (t : Term) : Layout :=
  t.layout p ++ { conditions := [t] }

mutual

def Code.layout (p : Region) : Code → Layout
  | .skip => {}
  | .seq first second => first.layout p ++ second.layout p
  | .declare targets => p.declare targets
  | .constant targets value => p.assign targets [] (targets.map (.constant · value))
  | .copy targets source => p.assign targets [source] (targets.map (.copy · source))
  | .compute target name args =>
    Term.layouts p args ++ p.assign [target] [] [] ++
      p.application target name (args.map (·.node))
  | .scatter value targets =>
    value.layout p ++ p.assign targets [value.node] (targets.map .arbitrary)
  | .call function args targets loc =>
    Term.layouts p args ++ p.assign targets [] [] ++
      p.site function (args.map (·.node)) targets loc
  | .branch condition block body =>
    condition.layout p ++ p.governed condition.node block ++ body.layout { p with block }
  | .switch selector cases => selector.layout p ++ cases.layout p selector.node
  | .loop init condition block body post =>
    init.layout p ++ condition.tested p ++ p.governed condition.node block ++
      body.layout (p.looping block) ++ post.layout (p.looping block)
  | .breakOut | .continueOn => { edges := (p.loop.map p.jump).getD [], jumps := [p.loop] }
  | .leave => { edges := p.jump p.root }

def Cases.layout (p : Region) (selector : NodeId) : Cases → Layout
  | .nil => {}
  | .fallback block body => p.governed selector block ++ body.layout { p with block }
  | .cons _ block body rest =>
    p.governed selector block ++ body.layout { p with block } ++ rest.layout p selector

end

def Layout.IsInner (l : Layout) : Prop :=
  l.params = [] ∧ l.returns = []

theorem Layout.IsInner.append {a b : Layout} (ha : a.IsInner) (hb : b.IsInner) :
    (a ++ b).IsInner := by
  simp [IsInner, ha.1, ha.2, hb.1, hb.2]

mutual

theorem Term.isInner_layout (p : Region) (t : Term) : (t.layout p).IsInner := by
  cases t with
  | literal node value => exact ⟨rfl, rfl⟩
  | read id => exact ⟨rfl, rfl⟩
  | apply node name args => exact ((isInner_layouts p args).append ⟨rfl, rfl⟩).append ⟨rfl, rfl⟩
  | call node function args loc =>
    exact ((isInner_layouts p args).append ⟨rfl, rfl⟩).append ⟨rfl, rfl⟩

theorem Term.isInner_layouts (p : Region) (ts : List Term) : (Term.layouts p ts).IsInner := by
  cases ts with
  | nil => exact ⟨rfl, rfl⟩
  | cons t rest => exact (t.isInner_layout p).append (isInner_layouts p rest)

end

mutual

/-- Code below the signature adds no parameters and no return variables. -/
theorem Code.isInner_layout (p : Region) (code : Code) : (code.layout p).IsInner := by
  cases code with
  | seq first second => exact (first.isInner_layout p).append (second.isInner_layout p)
  | compute target name args =>
    exact ((Term.isInner_layouts p args).append ⟨rfl, rfl⟩).append ⟨rfl, rfl⟩
  | scatter value targets => exact (value.isInner_layout p).append ⟨rfl, rfl⟩
  | call function args targets loc =>
    exact ((Term.isInner_layouts p args).append ⟨rfl, rfl⟩).append ⟨rfl, rfl⟩
  | branch condition block body =>
    exact ((condition.isInner_layout p).append ⟨rfl, rfl⟩).append (body.isInner_layout _)
  | switch selector cases =>
    exact (selector.isInner_layout p).append (cases.isInner_layout p selector.node)
  | loop init condition block body post =>
    have htested : (condition.tested p).IsInner := (condition.isInner_layout p).append ⟨rfl, rfl⟩
    exact ((((init.isInner_layout p).append htested).append
      ⟨rfl, rfl⟩).append (body.isInner_layout _)).append (post.isInner_layout _)
  | _ => exact ⟨rfl, rfl⟩

theorem Cases.isInner_layout (p : Region) (selector : NodeId) (cases : Cases) :
    (cases.layout p selector).IsInner := by
  cases cases with
  | nil => exact ⟨rfl, rfl⟩
  | fallback block body => exact Layout.IsInner.append ⟨rfl, rfl⟩ (body.isInner_layout _)
  | cons value block body rest =>
    exact (Layout.IsInner.append ⟨rfl, rfl⟩ (body.isInner_layout _)).append
      (rest.isInner_layout p selector)

end

def Function.region (f : Function) : Region :=
  { scope := f.scope, root := f.root, block := f.root }

def Region.params (p : Region) (ids : List NodeId) : Layout :=
  p.declare ids ++ { params := ids, definitions := ids.map .arbitrary }

def Region.returns (p : Region) (ids : List NodeId) : Layout :=
  p.declare ids ++ { returns := ids, definitions := ids.map (.constant · 0) }

/-- What stands below the root block. -/
def Function.inner (f : Function) : Layout :=
  f.region.params f.params ++ f.region.returns f.returns ++ f.body.layout f.region

def Function.layout (f : Function) : Layout :=
  { nodes := [f.root], blocks := [f.root] } ++ f.inner

end YulTaint.Execution
