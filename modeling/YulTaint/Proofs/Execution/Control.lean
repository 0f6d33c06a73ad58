import Mathlib.Logic.Relation
import YulTaint.Proofs.Execution.Laid

/-!
Control dependence. Whatever code can change hangs below the block that governs
it, and a condition stands above the block of what it governs. A jump ties its
block to the block of the loop, or of the function, that it leaves; so all that
can be skipped or repeated by the jump hangs below the conditions around it.
-/

namespace YulTaint.Execution

open YulTaint.Flow

open Relation (ReflTransGen TransGen)

def Reach (edges : List Edge) : NodeId → NodeId → Prop :=
  ReflTransGen fun a b => ⟨a, b⟩ ∈ edges

def Path (edges : List Edge) : NodeId → NodeId → Prop :=
  TransGen fun a b => ⟨a, b⟩ ∈ edges

structure Branch where
  condition : NodeId
  region : Region
  body : Code

def Branch.layout (b : Branch) : Layout :=
  b.body.layout b.region

/-- What a loop repeats, and where the loop stands. -/
structure Loop where
  outer : Region
  condition : Term
  block : NodeId
  body : Code
  post : Code

def Loop.region (l : Loop) : Region :=
  l.outer.looping l.block

def Loop.layout (l : Loop) : Layout :=
  l.body.layout l.region ++ l.post.layout l.region

mutual

/-- The bodies of branches, cases and loops, at any depth. -/
def Code.branches (p : Region) : Code → List Branch
  | .seq first second => first.branches p ++ second.branches p
  | .branch condition block body =>
    ⟨condition.node, { p with block }, body⟩ :: body.branches { p with block }
  | .switch selector cases => cases.branches p selector.node
  | .loop init condition block body post =>
    init.branches p ++ ⟨condition.node, p.looping block, body⟩ ::
      ⟨condition.node, p.looping block, post⟩ ::
      (body.branches (p.looping block) ++ post.branches (p.looping block))
  | _ => []

def Cases.branches (p : Region) (selector : NodeId) : Cases → List Branch
  | .nil => []
  | .fallback block body => ⟨selector, { p with block }, body⟩ :: body.branches { p with block }
  | .cons _ block body rest =>
    ⟨selector, { p with block }, body⟩ :: (body.branches { p with block } ++
      rest.branches p selector)

end

mutual

def Code.loops (p : Region) : Code → List Loop
  | .seq first second => first.loops p ++ second.loops p
  | .branch _ block body => body.loops { p with block }
  | .switch _ cases => cases.loops p
  | .loop init condition block body post =>
    init.loops p ++ ⟨p, condition, block, body, post⟩ ::
      (body.loops (p.looping block) ++ post.loops (p.looping block))
  | _ => []

def Cases.loops (p : Region) : Cases → List Loop
  | .nil => []
  | .fallback block body => body.loops { p with block }
  | .cons _ block body rest => body.loops { p with block } ++ rest.loops p

end

/-- All that a layout says is in another one. -/
structure Part (a b : Layout) : Prop where
  blocks : a.blocks ⊆ b.blocks
  edges : a.edges ⊆ b.edges
  definitions : a.definitions ⊆ b.definitions
  applications : a.applications ⊆ b.applications
  sites : a.sites ⊆ b.sites
  jumps : a.jumps ⊆ b.jumps

section Part

variable {a b c : Layout}

theorem Part.refl (a : Layout) : Part a a :=
  ⟨List.Subset.refl _, List.Subset.refl _, List.Subset.refl _, List.Subset.refl _,
    List.Subset.refl _, List.Subset.refl _⟩

theorem Part.trans (h : Part a b) (h' : Part b c) : Part a c :=
  ⟨fun _ hx => h'.blocks (h.blocks hx), fun _ hx => h'.edges (h.edges hx),
    fun _ hx => h'.definitions (h.definitions hx),
    fun _ hx => h'.applications (h.applications hx), fun _ hx => h'.sites (h.sites hx),
    fun _ hx => h'.jumps (h.jumps hx)⟩

theorem part_append_left (a b : Layout) : Part a (a ++ b) :=
  ⟨List.subset_append_left _ _, List.subset_append_left _ _, List.subset_append_left _ _,
    List.subset_append_left _ _, List.subset_append_left _ _, List.subset_append_left _ _⟩

theorem part_append_right (a b : Layout) : Part b (a ++ b) :=
  ⟨List.subset_append_right _ _, List.subset_append_right _ _, List.subset_append_right _ _,
    List.subset_append_right _ _, List.subset_append_right _ _, List.subset_append_right _ _⟩

theorem Part.left (h : Part a b) (c : Layout) : Part a (b ++ c) :=
  h.trans (part_append_left b c)

theorem Part.right (h : Part a b) (c : Layout) : Part a (c ++ b) :=
  h.trans (part_append_right c b)

theorem Part.append (ha : Part a c) (hb : Part b c) : Part (a ++ b) c :=
  ⟨List.append_subset.mpr ⟨ha.blocks, hb.blocks⟩, List.append_subset.mpr ⟨ha.edges, hb.edges⟩,
    List.append_subset.mpr ⟨ha.definitions, hb.definitions⟩,
    List.append_subset.mpr ⟨ha.applications, hb.applications⟩,
    List.append_subset.mpr ⟨ha.sites, hb.sites⟩, List.append_subset.mpr ⟨ha.jumps, hb.jumps⟩⟩

theorem Part.of_append (h : Part (a ++ b) c) : Part a c ∧ Part b c :=
  ⟨(part_append_left a b).trans h, (part_append_right a b).trans h⟩

end Part

/-- Where the body of a branch stands in the layout of the code around it. -/
structure Branch.In (b : Branch) (root : NodeId) (l : Layout) : Prop where
  part : Part b.layout l
  edge : ⟨b.condition, b.region.block⟩ ∈ l.edges
  root : b.region.root = root

theorem Branch.In.left {b : Branch} {root : NodeId} {l : Layout} (h : b.In root l) (l' : Layout) :
    b.In root (l ++ l') :=
  ⟨h.part.left l', List.mem_append_left _ h.edge, h.root⟩

theorem Branch.In.right {b : Branch} {root : NodeId} {l : Layout} (h : b.In root l) (l' : Layout) :
    b.In root (l' ++ l) :=
  ⟨h.part.right l', List.mem_append_right _ h.edge, h.root⟩

theorem mem_edges_governed (p : Region) (condition block : NodeId) :
    ⟨condition, block⟩ ∈ (p.governed condition block).edges :=
  List.mem_cons_of_mem _ List.mem_cons_self

mutual

/-- A branch has its place in the layout of the code around it. -/
theorem Code.mem_branches (code : Code) {p : Region} {b : Branch} (hb : b ∈ code.branches p) :
    b.In p.root (code.layout p) := by
  cases code with
  | seq first second =>
    rcases List.mem_append.mp hb with hb | hb
    · exact (first.mem_branches hb).left _
    · exact (second.mem_branches hb).right _
  | branch condition block body =>
    rcases List.mem_cons.mp hb with rfl | hb
    · exact ⟨(Part.refl _).right _, List.mem_append_left _
        (List.mem_append_right _ (mem_edges_governed p _ _)), rfl⟩
    · exact (body.mem_branches hb).right _
  | switch selector cases => exact (cases.mem_branches hb).right _
  | loop init condition block body post =>
    have hedge : ⟨condition.node, block⟩ ∈
        (Code.layout p (.loop init condition block body post)).edges :=
      List.mem_append_left _ (List.mem_append_left _
        (List.mem_append_right _ (mem_edges_governed p _ _)))
    rcases List.mem_append.mp hb with hb | hb
    · exact ((((init.mem_branches hb).left _).left _).left _).left _
    · rcases List.mem_cons.mp hb with rfl | hb
      · exact ⟨((Part.refl _).right _).left _, hedge, rfl⟩
      · rcases List.mem_cons.mp hb with rfl | hb
        · exact ⟨(Part.refl _).right _, hedge, rfl⟩
        · rcases List.mem_append.mp hb with hb | hb
          · exact ((body.mem_branches hb).right _).left _
          · exact (post.mem_branches hb).right _
  | _ => cases hb

theorem Cases.mem_branches (cases : Cases) {p : Region} {selector : NodeId} {b : Branch}
    (hb : b ∈ cases.branches p selector) : b.In p.root (cases.layout p selector) := by
  cases cases with
  | nil => cases hb
  | fallback block body =>
    rcases List.mem_cons.mp hb with rfl | hb
    · exact ⟨(Part.refl _).right _, List.mem_append_left _ (mem_edges_governed p _ _), rfl⟩
    · exact (body.mem_branches hb).right _
  | cons value block body rest =>
    rcases List.mem_cons.mp hb with rfl | hb
    · exact ⟨((Part.refl _).right _).left _,
        List.mem_append_left _ (List.mem_append_left _ (mem_edges_governed p _ _)), rfl⟩
    · rcases List.mem_append.mp hb with hb | hb
      · exact ((body.mem_branches hb).right _).left _
      · exact (rest.mem_branches hb).right _

end

structure Loop.In (l : Loop) (layout : Layout) : Prop where
  condition : Part (l.condition.layout l.outer) layout
  tested : l.condition ∈ layout.conditions
  repeated : Part l.layout layout

theorem Loop.In.left {l : Loop} {layout : Layout} (h : l.In layout) (layout' : Layout) :
    l.In (layout ++ layout') :=
  ⟨h.condition.left layout', List.mem_append_left _ h.tested, h.repeated.left layout'⟩

theorem Loop.In.right {l : Loop} {layout : Layout} (h : l.In layout) (layout' : Layout) :
    l.In (layout' ++ layout) :=
  ⟨h.condition.right layout', List.mem_append_right _ h.tested, h.repeated.right layout'⟩

mutual

theorem Code.mem_loops (code : Code) {p : Region} {l : Loop} (hl : l ∈ code.loops p) :
    l.In (code.layout p) := by
  cases code with
  | seq first second =>
    rcases List.mem_append.mp hl with hl | hl
    · exact (first.mem_loops hl).left _
    · exact (second.mem_loops hl).right _
  | branch condition block body => exact (body.mem_loops hl).right _
  | switch selector cases => exact (cases.mem_loops hl selector.node).right _
  | loop init condition block body post =>
    rcases List.mem_append.mp hl with hl | hl
    · exact ((((init.mem_loops hl).left _).left _).left _).left _
    · rcases List.mem_cons.mp hl with rfl | hl
      · have htested : Part (condition.layout p) (condition.tested p) := part_append_left _ _
        have hvalue : condition ∈ (condition.tested p).conditions :=
          List.mem_append_right _ List.mem_cons_self
        exact ⟨(((htested.right _).left _).left _).left _,
          List.mem_append_left _ (List.mem_append_left _ (List.mem_append_left _
            (List.mem_append_right _ hvalue))),
          (((Part.refl _).right _).left _).append ((Part.refl _).right _)⟩
      · rcases List.mem_append.mp hl with hl | hl
        · exact ((body.mem_loops hl).right _).left _
        · exact (post.mem_loops hl).right _
  | _ => cases hl

theorem Cases.mem_loops (cases : Cases) {p : Region} {l : Loop} (hl : l ∈ cases.loops p)
    (selector : NodeId) : l.In (cases.layout p selector) := by
  cases cases with
  | nil => cases hl
  | fallback block body => exact (body.mem_loops hl).right _
  | cons value block body rest =>
    rcases List.mem_append.mp hl with hl | hl
    · exact ((body.mem_loops hl).right _).left _
    · exact (rest.mem_loops hl selector).right _

end

section Governed

variable {edges : List Edge} {a b : NodeId} {l l' : Layout}

/-- Whatever a layout holds hangs below a block. -/
structure Governed (edges : List Edge) (block : NodeId) (l : Layout) : Prop where
  nodes : ∀ id ∈ l.nodes, Path edges block id
  targets : ∀ d ∈ l.definitions, Path edges block d.target
  calls : ∀ site ∈ l.sites, Reach edges block site.block
  applications : ∀ x ∈ l.applications, Reach edges block x.block

theorem Governed.append (h : Governed edges b l) (h' : Governed edges b l') :
    Governed edges b (l ++ l') where
  nodes id hid := (List.mem_append.mp hid).elim (h.nodes id) (h'.nodes id)
  targets d hd := (List.mem_append.mp hd).elim (h.targets d) (h'.targets d)
  calls site hsite := (List.mem_append.mp hsite).elim (h.calls site) (h'.calls site)
  applications x hx := (List.mem_append.mp hx).elim (h.applications x) (h'.applications x)

theorem Governed.above (h : Governed edges b l) (hreach : Reach edges a b) :
    Governed edges a l where
  nodes id hid := TransGen.trans_right hreach (h.nodes id hid)
  targets d hd := TransGen.trans_right hreach (h.targets d hd)
  calls site hsite := hreach.trans (h.calls site hsite)
  applications x hx := hreach.trans (h.applications x hx)

/-- Edges alone change nothing, nor do jumps and tests. -/
theorem governed_edges (added : List Edge) (jumps : List (Option NodeId)) (conditions : List Term) :
    Governed edges b { edges := added, jumps, conditions } where
  nodes _ h := nomatch h
  targets _ h := nomatch h
  calls _ h := nomatch h
  applications _ h := nomatch h

variable {p : Region}

theorem path_under {targets : List NodeId} (h : p.under targets ⊆ edges) {id : NodeId}
    (hid : id ∈ targets) : Path edges p.block id :=
  .single (h (List.mem_map_of_mem hid))

theorem governed_declare {ids : List NodeId} (h : p.under ids ⊆ edges) :
    Governed edges p.block (p.declare ids) where
  nodes _ hid := path_under h hid
  targets _ h := nomatch h
  calls _ h := nomatch h
  applications _ h := nomatch h

/-- Values for variables that the block governs. -/
theorem governed_define {targets : List NodeId} (h : p.under targets ⊆ edges)
    (hd : ∀ d ∈ l.definitions, d.target ∈ targets) (hnodes : l.nodes = [])
    (hsites : l.sites = []) (happlications : l.applications = []) :
    Governed edges p.block l where
  nodes _ hid := nomatch hnodes ▸ hid
  targets d hmem := path_under h (hd d hmem)
  calls _ hsite := nomatch hsites ▸ hsite
  applications _ hx := nomatch happlications ▸ hx

theorem governed_application {node : NodeId} (h : p.under [node] ⊆ edges) (name : String)
    (operands : List NodeId) : Governed edges p.block (p.application node name operands) where
  nodes _ h := nomatch h
  targets d hd := by
    rw [List.mem_singleton.mp hd]
    exact path_under h List.mem_cons_self
  calls _ h := nomatch h
  applications x hx := by
    rw [List.mem_singleton.mp hx]
    exact .refl

theorem governed_site {results : List NodeId} (h : p.under results ⊆ edges) (function : String)
    (arguments : List NodeId) (loc : Loc) :
    Governed edges p.block (p.site function arguments results loc) where
  nodes _ h := nomatch h
  targets d hd := by
    obtain ⟨id, hid, rfl⟩ := List.mem_map.mp hd
    exact path_under h hid
  calls site hsite := by
    rw [List.mem_singleton.mp hsite]
    exact .refl
  applications _ h := nomatch h

theorem governed_assign {targets sources : List NodeId} {definitions : List Definition}
    (h : (p.assign targets sources definitions).edges ⊆ edges)
    (htargets : ∀ d ∈ definitions, d.target ∈ targets) :
    Governed edges p.block (p.assign targets sources definitions) :=
  governed_define (List.append_subset.mp h).1 htargets rfl rfl rfl

theorem governed_governed {condition block : NodeId}
    (h : (p.governed condition block).edges ⊆ edges) :
    Path edges p.block block ∧ Governed edges p.block (p.governed condition block) := by
  have hpath : Path edges p.block block := .single (h List.mem_cons_self)
  refine ⟨hpath, ?_⟩
  constructor
  · intro id hid
    rw [List.mem_singleton.mp hid]
    exact hpath
  · exact fun _ h => nomatch h
  · exact fun _ h => nomatch h
  · exact fun _ h => nomatch h

mutual

/-- Whatever an expression creates or changes hangs below its block. -/
theorem Term.governed (t : Term) {p : Region} (h : (t.layout p).edges ⊆ edges) :
    Governed edges p.block (t.layout p) := by
  cases t with
  | literal node value =>
    obtain ⟨hdeclare, _⟩ := List.append_subset.mp h
    refine (governed_declare hdeclare).append (governed_define hdeclare ?_ rfl rfl rfl)
    intro d hd
    rw [List.mem_singleton.mp hd]
    exact List.mem_cons_self
  | read id => exact governed_edges [] [] []
  | apply node name args =>
    obtain ⟨hfirst, _⟩ := List.append_subset.mp h
    obtain ⟨hargs, hdeclare⟩ := List.append_subset.mp hfirst
    exact ((Term.governed_all args hargs).append (governed_declare hdeclare)).append
      (governed_application hdeclare name _)
  | call node function args loc =>
    obtain ⟨hfirst, _⟩ := List.append_subset.mp h
    obtain ⟨hargs, hdeclare⟩ := List.append_subset.mp hfirst
    exact ((Term.governed_all args hargs).append (governed_declare hdeclare)).append
      (governed_site hdeclare function _ loc)

theorem Term.governed_all (ts : List Term) {p : Region} (h : (Term.layouts p ts).edges ⊆ edges) :
    Governed edges p.block (Term.layouts p ts) := by
  cases ts with
  | nil => exact governed_edges [] [] []
  | cons t rest =>
    obtain ⟨hfirst, hrest⟩ := List.append_subset.mp h
    exact (t.governed hfirst).append (Term.governed_all rest hrest)

end

mutual

/-- Whatever code creates or changes hangs below the block around it. -/
theorem Code.governed (code : Code) {p : Region} (h : (code.layout p).edges ⊆ edges) :
    Governed edges p.block (code.layout p) := by
  cases code with
  | skip => exact governed_edges [] [] []
  | seq first second =>
    obtain ⟨hfirst, hsecond⟩ := List.append_subset.mp h
    exact (first.governed hfirst).append (second.governed hsecond)
  | declare targets => exact governed_declare h
  | constant targets value =>
    refine governed_assign h fun d hd => ?_
    obtain ⟨id, hid, rfl⟩ := List.mem_map.mp hd
    exact hid
  | copy targets source =>
    refine governed_assign h fun d hd => ?_
    obtain ⟨id, hid, rfl⟩ := List.mem_map.mp hd
    exact hid
  | compute target name args =>
    obtain ⟨hfirst, _⟩ := List.append_subset.mp h
    obtain ⟨hargs, hassign⟩ := List.append_subset.mp hfirst
    exact ((Term.governed_all args hargs).append
      (governed_assign hassign fun d hd => nomatch hd)).append
        (governed_application (List.append_subset.mp hassign).1 name _)
  | scatter value targets =>
    obtain ⟨hvalue, hassign⟩ := List.append_subset.mp h
    refine (value.governed hvalue).append (governed_assign hassign fun d hd => ?_)
    obtain ⟨id, hid, rfl⟩ := List.mem_map.mp hd
    exact hid
  | call function args targets loc =>
    obtain ⟨hfirst, _⟩ := List.append_subset.mp h
    obtain ⟨hargs, hassign⟩ := List.append_subset.mp hfirst
    exact ((Term.governed_all args hargs).append
      (governed_assign hassign fun d hd => nomatch hd)).append
        (governed_site (List.append_subset.mp hassign).1 function _ loc)
  | branch condition block body =>
    obtain ⟨hfirst, hbody⟩ := List.append_subset.mp h
    obtain ⟨hcondition, hblock⟩ := List.append_subset.mp hfirst
    obtain ⟨hpath, hnew⟩ := governed_governed hblock
    exact ((condition.governed hcondition).append hnew).append
      ((body.governed hbody).above hpath.to_reflTransGen)
  | switch selector cases =>
    obtain ⟨hselector, hcases⟩ := List.append_subset.mp h
    exact (selector.governed hselector).append (cases.governed hcases)
  | loop init condition block body post =>
    obtain ⟨h, hpost⟩ := List.append_subset.mp h
    obtain ⟨h, hbody⟩ := List.append_subset.mp h
    obtain ⟨h, hblock⟩ := List.append_subset.mp h
    obtain ⟨hinit, hcondition⟩ := List.append_subset.mp h
    obtain ⟨hpath, hnew⟩ := governed_governed hblock
    have htested : Governed edges p.block (condition.tested p) :=
      (condition.governed (List.append_subset.mp hcondition).1).append (governed_edges [] [] _)
    exact ((((init.governed hinit).append htested).append hnew).append
      ((body.governed hbody).above hpath.to_reflTransGen)).append
        ((post.governed hpost).above hpath.to_reflTransGen)
  | breakOut => exact governed_edges _ _ _
  | continueOn => exact governed_edges _ _ _
  | leave => exact governed_edges _ _ _

theorem Cases.governed (cases : Cases) {p : Region} {selector : NodeId}
    (h : (cases.layout p selector).edges ⊆ edges) :
    Governed edges p.block (cases.layout p selector) := by
  cases cases with
  | nil => exact governed_edges [] [] []
  | fallback block body =>
    obtain ⟨hblock, hbody⟩ := List.append_subset.mp h
    obtain ⟨hpath, hnew⟩ := governed_governed hblock
    exact hnew.append ((body.governed hbody).above hpath.to_reflTransGen)
  | cons value block body rest =>
    obtain ⟨hfirst, hrest⟩ := List.append_subset.mp h
    obtain ⟨hblock, hbody⟩ := List.append_subset.mp hfirst
    obtain ⟨hpath, hnew⟩ := governed_governed hblock
    exact (hnew.append ((body.governed hbody).above hpath.to_reflTransGen)).append
      (rest.governed hrest)

end

end Governed

/-- The edges of a layout into nodes of one set do not lead out of another
one. -/
def Layout.Keeps (l : Layout) (into kept : NodeId → Prop) : Prop :=
  ∀ e ∈ l.edges, into e.target → kept e.source → kept e.target

section Jumps

variable {into kept : NodeId → Prop}

theorem Layout.Keeps.append {a b : Layout} (h : (a ++ b).Keeps into kept) :
    a.Keeps into kept ∧ b.Keeps into kept :=
  ⟨fun e he => h e (List.mem_append_left _ he), fun e he => h e (List.mem_append_right _ he)⟩

/-- A set that holds the block around a jump holds its target. -/
theorem kept_of_jump {p : Region} {target : NodeId}
    (h : ∀ e ∈ p.jump target, into e.target → kept e.source → kept e.target)
    (htarget : into target) (hblock : kept p.block) : kept target := by
  unfold Region.jump at h
  split at h
  · rename_i hsame
    exact hsame ▸ hblock
  · exact h _ List.mem_cons_self htarget hblock

/-- A set that holds a block or a condition in it holds the block of the
branch. -/
theorem kept_of_governed {p : Region} {condition block : NodeId}
    (h : (p.governed condition block).Keeps into kept) (hinto : into block)
    (hkept : kept p.block ∨ kept condition) : kept block :=
  hkept.elim (h _ List.mem_cons_self hinto) (h _ (mem_edges_governed p _ _) hinto)

/-- A set holds where jumps go to: the block of the innermost loop if one may break
out of it or go on to its next round, the root block if one may leave. -/
structure KeepsTargets (loop : Option NodeId) (root : NodeId) (into kept : NodeId → Prop)
    (breaks leaves : Bool) : Prop where
  loop : breaks = true → ∀ block, loop = some block → into block → kept block
  root : leaves = true → into root → kept root

/-- Where two pieces of code jump to is kept if the targets of each are. -/
theorem KeepsTargets.or {loop : Option NodeId} {root : NodeId}
    {breaks breaks' leaves leaves' : Bool}
    (h : KeepsTargets loop root into kept breaks leaves)
    (h' : KeepsTargets loop root into kept breaks' leaves') :
    KeepsTargets loop root into kept (breaks || breaks') (leaves || leaves') where
  loop hbreaks := (Bool.or_eq_true _ _ |>.mp hbreaks).elim h.loop h'.loop
  root hleaves := (Bool.or_eq_true _ _ |>.mp hleaves).elim h.root h'.root

mutual

/-- A jump ties the block around it to that of the innermost loop, and leaving ties
it to the root block. -/
theorem Code.keepsTargets (code : Code) {p : Region} (h : (code.layout p).Keeps into kept)
    (hblocks : ∀ id ∈ (code.layout p).blocks, into id) (hblock : kept p.block) :
    KeepsTargets p.loop p.root into kept code.breaks code.leaves := by
  cases code with
  | seq first second =>
    obtain ⟨hfirst, hsecond⟩ := h.append
    obtain ⟨hblocks₁, hblocks₂⟩ := List.forall_mem_append.mp hblocks
    exact (first.keepsTargets hfirst hblocks₁ hblock).or
      (second.keepsTargets hsecond hblocks₂ hblock)
  | branch condition block body =>
    obtain ⟨hfirst, hbody⟩ := h.append
    obtain ⟨hblocks₁, hblocks₂⟩ := List.forall_mem_append.mp hblocks
    have hnew : into block := hblocks₁ block (List.mem_append_right _ List.mem_cons_self)
    exact body.keepsTargets (p := { p with block }) hbody hblocks₂
      (kept_of_governed hfirst.append.2 hnew (Or.inl hblock))
  | switch selector cases =>
    exact cases.keepsTargets h.append.2 (List.forall_mem_append.mp hblocks).2 (Or.inl hblock)
  | loop init condition block body post =>
    obtain ⟨h, hpost⟩ := h.append
    obtain ⟨h, hbody⟩ := h.append
    obtain ⟨h, hgoverned⟩ := h.append
    obtain ⟨hblocks, hblocks₄⟩ := List.forall_mem_append.mp hblocks
    obtain ⟨hblocks, hblocks₃⟩ := List.forall_mem_append.mp hblocks
    obtain ⟨hblocks, hblocks₂⟩ := List.forall_mem_append.mp hblocks
    have hinner : kept block :=
      kept_of_governed hgoverned (hblocks₂ block List.mem_cons_self) (Or.inl hblock)
    have hinit := init.keepsTargets h.append.1 (List.forall_mem_append.mp hblocks).1 hblock
    have hparts := (body.keepsTargets (p := p.looping block) hbody hblocks₃ hinner).or
      (post.keepsTargets (p := p.looping block) hpost hblocks₄ hinner)
    refine ⟨hinit.loop, fun hleaves => ?_⟩
    rw [Code.leaves, Bool.or_assoc, Bool.or_eq_true] at hleaves
    exact hleaves.elim hinit.root hparts.root
  | breakOut | continueOn =>
    refine ⟨fun _ loop hloop hinto => ?_, (nomatch ·)⟩
    simp only [Layout.Keeps, Code.layout, hloop] at h
    exact kept_of_jump h hinto hblock
  | leave => exact ⟨(nomatch ·), fun _ hinto => kept_of_jump h hinto hblock⟩
  | _ => exact ⟨(nomatch ·), (nomatch ·)⟩

theorem Cases.keepsTargets (cases : Cases) {p : Region} {selector : NodeId}
    (h : (cases.layout p selector).Keeps into kept)
    (hblocks : ∀ id ∈ (cases.layout p selector).blocks, into id)
    (hkept : kept p.block ∨ kept selector) :
    KeepsTargets p.loop p.root into kept cases.breaks cases.leaves := by
  cases cases with
  | nil => exact ⟨(nomatch ·), (nomatch ·)⟩
  | fallback block body =>
    obtain ⟨hgoverned, hbody⟩ := h.append
    obtain ⟨hblocks₁, hblocks₂⟩ := List.forall_mem_append.mp hblocks
    exact body.keepsTargets (p := { p with block }) hbody hblocks₂
      (kept_of_governed hgoverned (hblocks₁ block List.mem_cons_self) hkept)
  | cons value block body rest =>
    obtain ⟨hfirst, hrest⟩ := h.append
    obtain ⟨hgoverned, hbody⟩ := hfirst.append
    obtain ⟨hblocks, hblocks₃⟩ := List.forall_mem_append.mp hblocks
    obtain ⟨hblocks₁, hblocks₂⟩ := List.forall_mem_append.mp hblocks
    exact KeepsTargets.or
      (body.keepsTargets (p := { p with block }) hbody hblocks₂
        (kept_of_governed hgoverned (hblocks₁ block List.mem_cons_self) hkept))
      (rest.keepsTargets (p := p) hrest hblocks₃ hkept)

end

variable {edges : List Edge}

theorem keeps_reach {l : Layout} (h : l.edges ⊆ edges) (a : NodeId) :
    l.Keeps (fun _ => True) (Reach edges a) :=
  fun _ he _ hsource => hsource.tail (h he)

/-- Code that may break is tied to the block of its loop. -/
theorem Code.reach_loop (code : Code) {p : Region} {loop : NodeId} (hloop : p.loop = some loop)
    (h : (code.layout p).edges ⊆ edges) (hbreaks : code.breaks = true) :
    Reach edges p.block loop :=
  (code.keepsTargets (keeps_reach h p.block) (fun _ _ => trivial) .refl).loop hbreaks loop hloop
    trivial

/-- Code that may leave is tied to the root block. -/
theorem Code.reach_root (code : Code) {p : Region} (h : (code.layout p).edges ⊆ edges)
    (hleaves : code.leaves = true) : Reach edges p.block p.root :=
  (code.keepsTargets (keeps_reach h p.block) (fun _ _ => trivial) .refl).root hleaves trivial

end Jumps

/-- All that a layout can change depends on a node: the nodes it creates, those
it gives a value to, the blocks of its calls, and the memory words that its
applications write. -/
structure DependsOn (g : Graph) (edges : List Edge) (c : NodeId) (l : Layout) : Prop where
  nodes : ∀ id ∈ l.nodes, Path edges c id
  targets : ∀ d ∈ l.definitions, Path edges c d.target
  calls : ∀ site ∈ l.sites, Path edges c site.block
  words : ∀ a ∈ l.applications, ∀ access ∈ (effectOf g a).writes,
    ∀ name ∈ writtenNames g a access,
      ∃ word, g.globals.lookup name = some word ∧ Path edges c word

section Programs

variable {g : Graph} {f : Function} {scope : Scope} {c block : NodeId} {l : Layout}

/-- A node that leads to a block leads to all that the block governs. -/
theorem Laid.dependsOn (h : Laid g f) (hs : g.scope? f.scope = some scope)
    (hl : Part l f.layout) (hgoverned : Governed scope.edges block l)
    (hpath : Path scope.edges c block) : DependsOn g scope.edges c l where
  nodes id hid := hpath.trans (hgoverned.nodes id hid)
  targets d hd := hpath.trans (hgoverned.targets d hd)
  calls site hsite := TransGen.trans_left hpath (hgoverned.calls site hsite)
  words a ha access haccess name hname := by
    obtain ⟨word, hword, hwritten⟩ :=
      (h.applied a (hl.applications ha)).writes access haccess name hname
    have hedge := (hwritten.block a.block rfl).2 scope hs
    exact ⟨word, hword, (TransGen.trans_left hpath (hgoverned.applications a ha)).tail hedge⟩

/-- The root block governs the whole of a function. -/
theorem Function.governed {edges : List Edge} (f : Function) (h : f.inner.edges ⊆ edges) :
    Governed edges f.root f.inner := by
  obtain ⟨h, hbody⟩ := List.append_subset.mp h
  obtain ⟨hparams, hreturns⟩ := List.append_subset.mp h
  have hparams : f.region.under f.params ⊆ edges := (List.append_subset.mp hparams).1
  have hreturns : f.region.under f.returns ⊆ edges := (List.append_subset.mp hreturns).1
  have htargets (ids : List NodeId) (define : NodeId → Definition)
      (hdefine : ∀ id, (define id).target = id) :
      ∀ d ∈ ids.map define, d.target ∈ ids := by
    intro d hd
    obtain ⟨id, hid, rfl⟩ := List.mem_map.mp hd
    exact (hdefine id).symm ▸ hid
  have hfirst : Governed edges f.root (f.region.params f.params) :=
    (governed_declare hparams).append
      (governed_define hparams (htargets f.params .arbitrary fun _ => rfl) rfl rfl rfl)
  have hsecond : Governed edges f.root (f.region.returns f.returns) :=
    (governed_declare hreturns).append
      (governed_define hreturns (htargets f.returns (.constant · 0) fun _ => rfl) rfl rfl rfl)
  exact (hfirst.append hsecond).append (f.body.governed hbody)

/-- What hangs below the root block of a function is all of it. -/
theorem Laid.dependsOn_root (h : Laid g f) (hs : g.scope? f.scope = some scope)
    (hpath : Path scope.edges c f.root) : DependsOn g scope.edges c f.layout := by
  obtain ⟨scope', hs', _, _, _, _, _, hedges⟩ := h.scope
  cases hs.symm.trans hs'
  have hinner := h.dependsOn hs ((Part.refl f.inner).right _) (f.governed hedges) hpath
  refine ⟨?_, hinner.targets, hinner.calls, hinner.words⟩
  intro id hid
  rcases List.mem_cons.mp hid with rfl | hid
  · exact hpath
  · exact hinner.nodes id hid

/-- In the graph of a program, every scope holds the code of its function, and

* what a condition governs depends on it,
* a jump out of a loop, or to its next round, makes all that the loop repeats
  depend on every condition around the jump inside the loop,
* leaving a function makes all of it depend on every condition around. -/
theorem depends_on_conditions {program : Node} (hg : collect program = .ok g) :
    (functions program).map (·.scope) = g.scopeNames ∧
    ∀ f ∈ functions program, ∃ scope, g.scope? f.scope = some scope ∧
      scope.nodes = f.layout.nodes ∧ scope.sites = f.layout.sites ∧ scope.returns = f.returns ∧
      (∀ b ∈ f.body.branches f.region, DependsOn g scope.edges b.condition b.layout) ∧
      (∀ l ∈ f.body.loops f.region, ∀ b ∈ l.body.branches l.region ++ l.post.branches l.region,
        b.region.loop = some l.block → b.body.breaks = true →
          DependsOn g scope.edges b.condition l.layout) ∧
      ∀ b ∈ f.body.branches f.region, b.body.leaves = true →
        DependsOn g scope.edges b.condition f.layout := by
  obtain ⟨hscopes, hlaid⟩ := laid_of_collect hg
  refine ⟨hscopes, fun f hf => ?_⟩
  have hlay := hlaid f hf
  obtain ⟨scope, hs, _, _, hreturns, hnodes, hsites, hedges⟩ := hlay.scope
  have hbody : Part (f.body.layout f.region) f.layout := ((Part.refl _).right _).right _
  refine ⟨scope, hs, hnodes, hsites, hreturns, ?_, ?_, ?_⟩
  · intro b hb
    have hin := f.body.mem_branches hb
    have hpart := hin.part.trans hbody
    exact hlay.dependsOn hs hpart (b.body.governed fun _ he => hedges (hpart.edges he))
      (.single (hedges (hbody.edges hin.edge)))
  · intro l hl b hb hloop hbreaks
    have hpart := (f.body.mem_loops hl).repeated.trans hbody
    have hin : b.In l.region.root l.layout := by
      rcases List.mem_append.mp hb with hb | hb
      · exact (l.body.mem_branches hb).left _
      · exact (l.post.mem_branches hb).right _
    have hlower : l.layout.edges ⊆ scope.edges := fun _ he => hedges (hpart.edges he)
    obtain ⟨hfirst, hsecond⟩ := List.append_subset.mp hlower
    have hjump := b.body.reach_loop hloop (fun _ he => hlower (hin.part.edges he)) hbreaks
    exact hlay.dependsOn hs hpart ((l.body.governed hfirst).append (l.post.governed hsecond))
      (TransGen.trans_left (.single (hlower hin.edge)) hjump)
  · intro b hb hleaves
    have hin := f.body.mem_branches hb
    have hjump := b.body.reach_root
      (fun _ he => hedges (hbody.edges (hin.part.edges he))) hleaves
    rw [hin.root] at hjump
    exact hlay.dependsOn_root hs
      (TransGen.trans_left (.single (hedges (hbody.edges hin.edge))) hjump)

/-- A function whose loop can be broken out of, and which can be left from
there: `for {} lt(r, p) { r := add(r, 1) } { if eq(r, 7) { break } mstore(0, r)
if p { leave } }`. -/
def jumpingProgram : Node :=
  .program "jumping" [.function "f" ["p"] ["r"] (.block [
    .loop (.block [] {}) (.call "lt" [.identifier "r" {}, .identifier "p" {}] {})
      (.block [.assignment ["r"]
        (.call "add" [.identifier "r" {}, .literal (.integer 1) {}] {}) {}] {})
      (.block [
        .branch (.call "eq" [.identifier "r" {}, .literal (.integer 7) {}] {})
          (.block [.breakOut {}] {}) {},
        .expression (.call "mstore" [.literal (.integer 0) {}, .identifier "r" {}] {}) {},
        .branch (.identifier "p" {}) (.block [.leave {}] {}) {}] {}) {}] {}) {}] {}

/-- The conditions of the loop, of the jump out of it and of leaving. -/
theorem branches_jumpingProgram : (collect jumpingProgram).toOption.any fun g =>
    (functions jumpingProgram).any fun f => f.scope = "f" &&
      ((f.body.branches f.region).any fun b => b.condition = 4 &&
        b.layout.applications.any fun a => (effectOf g a).writes.any fun access =>
          (writtenNames g a access).contains (Memory.wordName 0)) &&
      ((f.body.loops f.region).any fun l => l.layout.nodes.contains 12 &&
        (l.body.branches l.region).any fun b =>
          b.condition = 7 && b.region.loop = some l.block && b.body.breaks) &&
      ((f.body.branches f.region).any fun b => b.condition = 2 && b.body.leaves) &&
      f.layout.nodes.contains 3 := by
  decide +kernel

theorem depends_on_conditions_jumpingProgram :
    ∃ g scope word, collect jumpingProgram = .ok g ∧ g.scope? "f" = some scope ∧
      g.globals.lookup (Memory.wordName 0) = some word ∧ Path scope.edges 4 word ∧
      Path scope.edges 7 12 ∧ Path scope.edges 2 3 := by
  cases hg : collect jumpingProgram with
  | error fault =>
    have hnone := branches_jumpingProgram
    rw [hg] at hnone
    cases hnone
  | ok g =>
    have hsome := branches_jumpingProgram
    rw [hg] at hsome
    simp only [Except.toOption, Option.any_some, List.any_eq_true, Bool.and_eq_true,
      decide_eq_true_eq, List.contains_iff_mem] at hsome
    obtain ⟨f, hf, ⟨⟨⟨hscope, hloop⟩, hbreak⟩, hleave⟩, hreturn⟩ := hsome
    obtain ⟨scope, hs, -, -, -, hbranches, hloops, hleaves⟩ :=
      (depends_on_conditions hg).2 f hf
    obtain ⟨b, hb, hcondition, a, ha, access, haccess, hname⟩ := hloop
    obtain ⟨word, hword, hstore⟩ := (hbranches b hb).words a ha access haccess _ hname
    obtain ⟨l, hl, hpost, jump, hjump, ⟨hjumpCondition, hregion⟩, hbreaks⟩ := hbreak
    have hround :=
      (hloops l hl jump (List.mem_append_left _ hjump) hregion hbreaks).nodes 12 hpost
    obtain ⟨exit, hexit, hexitCondition, hleaf⟩ := hleave
    have hresult := (hleaves exit hexit hleaf).nodes 3 hreturn
    rw [hcondition] at hstore
    rw [hjumpCondition] at hround
    rw [hexitCondition] at hresult
    exact ⟨g, scope, word, rfl, hscope ▸ hs, hword, hstore, hround, hresult⟩

end Programs

end YulTaint.Execution
