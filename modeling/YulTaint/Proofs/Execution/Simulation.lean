import Mathlib.Tactic
import YulTaint.Proofs.Execution.Tracking

/-!
Monitored execution against the flow graph. What the monitor finds tainted while
code runs is held by nodes that taint reaches: values by the nodes of the
expressions and variables, jumps by the blocks of loops and functions. One lemma
for each form of code; loops by induction on their rounds, calls by induction on
their depth.
-/

namespace YulTaint.Execution

open YulTaint.Flow

open YulTaint.Taint (CanTaint)

/-- A way of calling functions that keeps track: called where a call site stands,
under tainted control or with tainted arguments only if taint reaches them, it
gives results that are tainted only if taint reaches the nodes they go to. -/
def Invokes (σ : Setting) (entry : String) (T : List SiteRef → NodeId → Prop) (call : Invoke) :
    Prop :=
  ∀ {path chain last i site}, σ.graph.CallPath entry path chain last →
    σ.graph.site? ⟨last, i⟩ = some site → ∀ {pc values}, (pc = true → T path site.block) →
    List.Forall₂ (fun arg (v : Value) => v.tainted = true → T path arg) site.arguments values →
    Sat (Machine.Tracked σ.graph entry T) (call chain pc site.callee values) fun results =>
      ∀ entry ∈ site.results.zip results, entry.2.tainted = true → CanTaint σ.graph entry.1 →
        T path entry.1

namespace Activation

variable {g : Graph} {entry : String} {A : Activation g entry} {T : List SiteRef → NodeId → Prop}
  {sources : Bool}

theorem allows_arbitrary {id : NodeId} (h : .arbitrary id ∈ A.function.layout.definitions)
    (word : Int) : A.Allows id word :=
  allows_of_mem h (Knowledge.allows_varying word)

theorem exists_site {site : CallSite} (h : site ∈ A.function.layout.sites) :
    ∃ i, g.site? ⟨A.function.scope, i⟩ = some site := by
  obtain ⟨s, hs, _, _, _, _, hsites, _⟩ := A.laid.scope
  obtain ⟨i, hi⟩ := List.getElem?_of_mem (hsites.symm ▸ h)
  exact ⟨i, by rw [Graph.site?, hs, Option.bind_some, hi]⟩

theorem keeps (hT : Spreads g entry sources T) {l : Layout} (hl : Part l A.function.layout) :
    l.Keeps (CanTaint g) (T A.path) :=
  fun _ he hcan hsource => A.edge hT hl he hcan hsource

end Activation

mutual

/-- Code that may break stands in a loop. -/
theorem Code.isSome_loop (code : Code) {p : Region}
    (h : ∀ loop ∈ (code.layout p).jumps, loop.isSome = true) (hbreaks : code.breaks = true) :
    p.loop.isSome = true := by
  cases code with
  | seq first second =>
    obtain ⟨hfirst, hsecond⟩ := List.forall_mem_append.mp h
    rcases Bool.or_eq_true _ _ |>.mp hbreaks with hb | hb
    · exact first.isSome_loop hfirst hb
    · exact second.isSome_loop hsecond hb
  | branch condition block body =>
    exact body.isSome_loop (p := { p with block }) (List.forall_mem_append.mp h).2 hbreaks
  | switch selector cases => exact cases.isSome_loop (List.forall_mem_append.mp h).2 hbreaks
  | loop init condition block body post =>
    obtain ⟨h, _⟩ := List.forall_mem_append.mp h
    obtain ⟨h, _⟩ := List.forall_mem_append.mp h
    obtain ⟨h, _⟩ := List.forall_mem_append.mp h
    exact init.isSome_loop (List.forall_mem_append.mp h).1 hbreaks
  | breakOut => exact h p.loop List.mem_cons_self
  | continueOn => exact h p.loop List.mem_cons_self
  | _ => cases hbreaks

theorem Cases.isSome_loop (cases : Cases) {p : Region} {selector : NodeId}
    (h : ∀ loop ∈ (cases.layout p selector).jumps, loop.isSome = true)
    (hbreaks : cases.breaks = true) : p.loop.isSome = true := by
  cases cases with
  | nil => cases hbreaks
  | fallback block body =>
    exact body.isSome_loop (p := { p with block }) (List.forall_mem_append.mp h).2 hbreaks
  | cons value block body rest =>
    obtain ⟨hfirst, hrest⟩ := List.forall_mem_append.mp h
    rcases Bool.or_eq_true _ _ |>.mp hbreaks with hb | hb
    · exact body.isSome_loop (p := { p with block }) (List.forall_mem_append.mp hfirst).2 hb
    · exact rest.isSome_loop hrest hb

end

/-- What the simulation of one function rests on. -/
structure Tracks (σ : Setting) (entry : String) (T : List SiteRef → NodeId → Prop) (call : Invoke) :
    Prop where
  fits : σ.Fits
  spreads : Spreads σ.graph entry σ.sources T
  invokes : Invokes σ entry T call

section Simulation

variable {σ : Setting} {entry : String} {T : List SiteRef → NodeId → Prop}
  {A : Activation σ.graph entry} {call : Invoke} {p : Region} {known : NodeId → Prop} {pc : Bool}
  {code : Code} {id : NodeId}

mutual

/-- Control taint matters only to expressions that write to memory or call
functions. -/
theorem sat_eval (h : Tracks σ entry T call) (t : Term) {store : NodeId → Value}
    (ht : Part (t.layout p) A.function.layout) (hreads : t.Reads known)
    (hstore : ∀ id, known id → A.Holds T id (store id))
    (hpc : pc = true → T A.path p.block ∨ t.isPlain σ.sources = true) :
    Sat (Machine.Tracked σ.graph entry T) (eval σ call A.chain pc store t) (A.Holds T t.node) := by
  cases t with
  | literal node value =>
    rw [eval]
    have hd : .constant node value ∈ A.function.layout.definitions :=
      ht.definitions (List.mem_append_right _ List.mem_cons_self)
    exact sat_pure ⟨fun h => (nomatch h),
      Activation.allows_of_mem hd (Knowledge.allows_constant value)⟩
  | read id =>
    rw [eval]
    exact sat_pure (hstore id hreads)
  | apply node name args =>
    obtain ⟨hfirst, happly⟩ := ht.of_append
    simp only [Term.isPlain, Bool.and_eq_true] at hpc
    rw [eval]
    refine (sat_evalAll h args hfirst.of_append.1 hreads hstore
      fun htrue => (hpc htrue).imp_right And.right).bind fun values hvalues => ?_
    exact Call.Placed.sat h.fits h.spreads
      ⟨happly.applications List.mem_cons_self, happly.definitions List.mem_cons_self, hvalues,
        fun htrue => (hpc htrue).imp_right And.left⟩
  | call node function args loc =>
    obtain ⟨hfirst, hsite⟩ := ht.of_append
    have hblock (htrue : pc = true) : T A.path p.block := (hpc htrue).resolve_right (nomatch ·)
    obtain ⟨i, hi⟩ := A.exists_site (hsite.sites List.mem_cons_self)
    have hd : .arbitrary node ∈ A.function.layout.definitions :=
      hsite.definitions List.mem_cons_self
    rw [eval]
    refine (sat_evalAll h args hfirst.of_append.1 hreads hstore
      fun htrue => Or.inl (hblock htrue)).bind fun values hvalues => ?_
    refine (h.invokes A.calls hi hblock (hvalues.imp fun _ _ hv htrue => (hv.taint htrue).1)).bind
      fun results hresults => sat_pure ?_
    refine h.fits.holds_hold (A.laid.defined _ hd) (A.allows_arbitrary hd _)
      fun htainted hcan => ?_
    cases results with
    | nil => cases htainted
    | cons v rest => exact hresults (node, v) List.mem_cons_self htainted hcan

theorem sat_evalAll (h : Tracks σ entry T call) (ts : List Term) {store : NodeId → Value}
    (hts : Part (Term.layouts p ts) A.function.layout) (hreads : Term.ReadsAll known ts)
    (hstore : ∀ id, known id → A.Holds T id (store id))
    (hpc : pc = true → T A.path p.block ∨ Term.arePlain σ.sources ts = true) :
    Sat (Machine.Tracked σ.graph entry T) (evalAll σ call A.chain pc store ts)
      (List.Forall₂ (A.Holds T) (ts.map (·.node))) := by
  cases ts with
  | nil =>
    rw [evalAll]
    exact sat_pure .nil
  | cons t rest =>
    obtain ⟨hfirst, hrest⟩ := hts.of_append
    simp only [Term.arePlain, Bool.and_eq_true] at hpc
    rw [evalAll]
    refine (sat_evalAll h rest hrest hreads.2 hstore
      fun htrue => (hpc htrue).imp_right And.right).bind fun values hvalues => ?_
    exact (sat_eval h t hfirst hreads.1 hstore fun htrue => (hpc htrue).imp_right And.left).bind
      fun value hvalue => sat_pure (.cons hvalue hvalues)

end

/-- A frame that holds what its nodes may hold. Of the words, only those of the
variables that are known to have a value count. -/
structure Frame.Tracked (f : Frame) (A : Activation σ.graph entry)
    (T : List SiteRef → NodeId → Prop) (p : Region) (known : NodeId → Prop) : Prop where
  taint : ∀ id, (f.store id).tainted = true →
    T A.path id ∧ σ.graph.OwnsVariable A.function.scope id
  words : ∀ id, known id → A.Allows id (f.store id).word
  loop : f.loopTaint = true → ∃ block, p.loop = some block ∧ T A.path block
  leave : f.leaveTaint = true → T A.path p.root

/-- Blocks that can be tainted, with the governing one tainted whenever the
root or the loop is. -/
structure Region.Nested (p : Region) (A : Activation σ.graph entry)
    (T : List SiteRef → NodeId → Prop) : Prop where
  canRoot : CanTaint σ.graph p.root
  canLoop : ∀ block, p.loop = some block → CanTaint σ.graph block
  root : T A.path p.root → T A.path p.block
  loop : ∀ block, p.loop = some block → T A.path block → T A.path p.block

structure Fills (A : Activation σ.graph entry) (T : List SiteRef → NodeId → Prop) (p : Region)
    (e : NodeId × Value) : Prop where
  owned : σ.graph.OwnsVariable A.function.scope e.1
  word : A.Allows e.1 e.2.word
  taint : e.2.tainted = true → CanTaint σ.graph e.1 → T A.path e.1
  block : CanTaint σ.graph e.1 → T A.path p.block → T A.path e.1

variable {f : Frame}

theorem Frame.Tracked.holds (hf : f.Tracked A T p known) (hid : known id) :
    A.Holds T id (f.store id) :=
  ⟨hf.taint id, hf.words id hid⟩

/-- Frames do not depend on the governing block. -/
theorem Frame.Tracked.region (hf : f.Tracked A T p known) {q : Region} (hloop : q.loop = p.loop)
    (hroot : q.root = p.root) : f.Tracked A T q known :=
  ⟨hf.taint, hf.words, by rw [hloop]; exact hf.loop, by rw [hroot]; exact hf.leave⟩

theorem Frame.Tracked.path (hf : f.Tracked A T p known) (hp : p.Nested A T)
    (hpc : pc = true → T A.path p.block) (h : f.path pc = true) : T A.path p.block := by
  simp only [Frame.path, Bool.or_eq_true] at h
  rcases h with (h | h) | h
  · exact hpc h
  · obtain ⟨block, hblock, hT⟩ := hf.loop h
    exact hp.loop block hblock hT
  · exact hp.root (hf.leave h)

/-- A condition on which jumps depend is noted. Its taint reaches where they go to. -/
theorem Frame.Tracked.guard (hf : f.Tracked A T p known) (hp : p.Nested A T)
    {breaks leaves tainted : Bool} (hjumps : breaks = true → p.loop.isSome = true)
    (htargets : tainted = true →
      KeepsTargets p.loop p.root (CanTaint σ.graph) (T A.path) breaks leaves) :
    (f.guard breaks leaves tainted).Tracked A T p known := by
  refine ⟨hf.taint, hf.words, fun h => ?_, fun h => ?_⟩
  · simp only [Frame.guard, Bool.or_eq_true, Bool.and_eq_true] at h
    refine h.elim hf.loop fun ⟨hbreaks, htainted⟩ => ?_
    obtain ⟨loop, hloop⟩ := Option.isSome_iff_exists.mp (hjumps hbreaks)
    exact ⟨loop, hloop, (htargets htainted).loop hbreaks loop hloop (hp.canLoop loop hloop)⟩
  · simp only [Frame.guard, Bool.or_eq_true, Bool.and_eq_true] at h
    exact h.elim hf.leave fun ⟨hleaves, htainted⟩ => (htargets htainted).root hleaves hp.canRoot

/-- A frame stays tracked when a node gets a value that it may hold. -/
theorem Frame.Tracked.write (hf : f.Tracked A T p known) (hσ : σ.Fits)
    (hpath : f.path pc = true → T A.path p.block) {e : NodeId × Value} (he : Fills A T p e) :
    (f.write σ pc e).Tracked A T p fun id => known id ∨ id = e.1 := by
  have hholds : A.Holds T e.1 (σ.hold e.1 { e.2 with tainted := e.2.tainted || f.path pc }) := by
    refine hσ.holds_hold he.owned he.word fun htainted hcan => ?_
    rcases Bool.or_eq_true _ _ |>.mp htainted with h | h
    · exact he.taint h hcan
    · exact he.block hcan (hpath h)
  refine ⟨fun id h => ?_, fun id hid => ?_, hf.loop, hf.leave⟩
  · simp only [Frame.write] at h
    split at h
    · rename_i hsame
      subst hsame
      exact hholds.taint h
    · exact hf.taint id h
  · simp only [Frame.write]
    split
    · rename_i hsame
      subst hsame
      exact hholds.word
    · rename_i hother
      exact hf.words id (hid.resolve_right hother)

theorem Frame.Tracked.writeAll (hf : f.Tracked A T p known) (hσ : σ.Fits)
    (hpath : f.path pc = true → T A.path p.block) {entries : List (NodeId × Value)}
    (hentries : ∀ e ∈ entries, Fills A T p e) :
    (f.writeAll σ pc entries).Tracked A T p fun id => known id ∨ id ∈ entries.map (·.1) := by
  induction entries generalizing f known with
  | nil => exact { hf with words := fun id hid => hf.words id (hid.resolve_right (nomatch ·)) }
  | cons e rest ih =>
    obtain ⟨he, hrest⟩ := List.forall_mem_cons.mp hentries
    have hall := ih (hf.write hσ hpath he) hpath hrest
    exact { hall with words := fun id hid => hall.words id (by simpa [or_assoc] using hid) }

/-- The frame that code ends with. If the code runs to its end, then what it
assigns has a value. -/
def Ends (A : Activation σ.graph entry) (T : List SiteRef → NodeId → Prop) (p : Region)
    (known : NodeId → Prop) (code : Code) (r : Frame × Exit) : Prop :=
  r.1.Tracked A T p fun id => known id ∨ r.2 = .next ∧ id ∈ code.assigned

theorem Frame.Tracked.ends (hf : f.Tracked A T p known) {exit : Exit}
    (h : exit = .next → code.assigned = []) : Ends A T p known code (f, exit) := by
  refine { hf with words := fun id hid => hf.words id (hid.resolve_right ?_) }
  rintro ⟨hexit, hmem⟩
  rw [h hexit] at hmem
  cases hmem

theorem Frame.Tracked.ends_next {ids : List NodeId}
    (hf : f.Tracked A T p fun id => known id ∨ id ∈ ids)
    (h : ∀ id ∈ code.assigned, id ∈ ids ∨ ∀ word, A.Allows id word) :
    Ends A T p known code (f, .next) := by
  refine { hf with words := fun id hid => ?_ }
  rcases hid with hid | ⟨_, hid⟩
  · exact hf.words id (Or.inl hid)
  · exact (h id hid).elim (fun hid => hf.words id (Or.inr hid)) fun hall => hall _

theorem Ends.next (h : Ends A T p known code (f, .next)) :
    f.Tracked A T p fun id => known id ∨ id ∈ code.assigned :=
  { h with words := fun id hid => h.words id (hid.imp_right fun hid => ⟨rfl, hid⟩) }

theorem Ends.tracked {r : Frame × Exit} (h : Ends A T p known code r) :
    r.1.Tracked A T p known :=
  { h with words := fun id hid => h.words id (Or.inl hid) }

theorem sat_drawAll (tainted : Bool) (targets : List NodeId) :
    Sat (Machine.Tracked σ.graph entry T) (drawAll σ tainted targets) fun entries =>
      entries.map (·.1) = targets ∧ ∀ e ∈ entries, e.2.tainted = tainted := by
  induction targets with
  | nil => exact sat_pure ⟨rfl, fun _ he => (nomatch he)⟩
  | cons id rest ih =>
    have hget : Sat (Machine.Tracked σ.graph entry T) get (Machine.Tracked σ.graph entry T) :=
      fun _ hm => ⟨hm, hm⟩
    have hset {m : Machine} (hm : m.Tracked σ.graph entry T) :
        Sat (Machine.Tracked σ.graph entry T) (set { m with drawn := m.drawn + 1 })
          fun _ => True :=
      fun _ _ => ⟨⟨hm.memory, hm.events⟩, trivial⟩
    refine hget.bind fun m hm => (hset hm).bind fun _ _ => ih.bind fun entries hentries => ?_
    refine sat_pure ⟨congrArg (id :: ·) hentries.1, ?_⟩
    exact List.forall_mem_cons.mpr ⟨rfl, hentries.2⟩

/-- The rounds of a loop, given what one evaluation of the condition and one run
of each part keep. -/
theorem sat_iterate {condition : Bool → Frame → Run Value} {leaves : Bool} {body post : Step}
    (hp : p.Nested A T)
    (hcondition : ∀ pc f, f.Tracked A T p known →
      Sat (Machine.Tracked σ.graph entry T) (condition pc f) fun v =>
        v.tainted = true → T A.path p.block)
    (hleaves : T A.path p.block → leaves = true → CanTaint σ.graph p.root → T A.path p.root)
    (hbody : ∀ pc f, (pc = true → T A.path p.block) → f.Tracked A T p known →
      Sat (Machine.Tracked σ.graph entry T) (body pc f) fun r => r.1.Tracked A T p known)
    (hpost : ∀ pc f, (pc = true → T A.path p.block) → f.Tracked A T p known →
      Sat (Machine.Tracked σ.graph entry T) (post pc f) fun r => r.1.Tracked A T p known)
    (rounds : Nat) (hpc : pc = true → T A.path p.block) (hf : f.Tracked A T p known) :
    Sat (Machine.Tracked σ.graph entry T) (iterate condition leaves body post rounds pc f) fun r =>
      r.1.Tracked A T p known := by
  induction rounds generalizing pc f with
  | zero => exact sat_throw _ _
  | succ rounds ih =>
    rw [iterate]
    refine (hcondition pc f hf).bind fun v hv => ?_
    have hguard : (f.guard false leaves v.tainted).Tracked A T p known :=
      hf.guard hp (nomatch ·) fun htainted => ⟨(nomatch ·), hleaves (hv htainted)⟩
    have hpc' (h : (pc || v.tainted) = true) : T A.path p.block :=
      (Bool.or_eq_true _ _ |>.mp h).elim hpc hv
    split
    · exact sat_pure hguard
    · refine (hbody _ _ hpc' hguard).bind fun ⟨f₁, exit⟩ h₁ => ?_
      cases exit with
      | broke => exact sat_pure h₁
      | left => exact sat_pure h₁
      | next | continued =>
        refine (hpost _ _ hpc' h₁).bind fun ⟨f₂, exit⟩ h₂ => ?_
        cases exit with
        | broke => exact sat_pure h₂
        | left => exact sat_pure h₂
        | next | continued => exact ih hpc' h₂

section Regions

variable (h : Tracks σ entry T call) {condition block : NodeId}

include h

theorem Tracks.canTaint {l : Layout} (hl : Part l A.function.layout) :
    ∀ id ∈ l.blocks, CanTaint σ.graph id :=
  fun id hid => h.fits.canTaint_of_isBlock (A.laid.blocks id (hl.blocks hid))

/-- Taint reaches the block of a branch from the block around it and from the
condition. -/
theorem Tracks.governed (hl : Part (p.governed condition block) A.function.layout)
    (hreach : T A.path p.block ∨ T A.path condition) : T A.path block :=
  kept_of_governed (A.keeps h.spreads hl) (h.canTaint hl block List.mem_cons_self) hreach

theorem Tracks.nested (hl : Part (p.governed condition block) A.function.layout)
    (hp : p.Nested A T) :
    Region.Nested { p with block } A T where
  canRoot := hp.canRoot
  canLoop := hp.canLoop
  root hroot := h.governed hl (Or.inl (hp.root hroot))
  loop loop hloop hreach := h.governed hl (Or.inl (hp.loop loop hloop hreach))

theorem Tracks.nested_looping (hl : Part (p.governed condition block) A.function.layout)
    (hp : p.Nested A T) :
    (p.looping block).Nested A T where
  canRoot := hp.canRoot
  canLoop _ hloop := Option.some.inj hloop ▸ h.canTaint hl block List.mem_cons_self
  root hroot := h.governed hl (Or.inl (hp.root hroot))
  loop _ hloop hreach := Option.some.inj hloop ▸ hreach

/-- Below a block that taint reaches, it reaches where jumps go to. -/
theorem Tracks.targets (code : Code) (hl : Part (code.layout p) A.function.layout)
    (hblock : T A.path p.block) :
    KeepsTargets p.loop p.root (CanTaint σ.graph) (T A.path) code.breaks code.leaves :=
  code.keepsTargets (A.keeps h.spreads hl) (h.canTaint hl) hblock

end Regions

theorem sat_evalIn (h : Tracks σ entry T call) (t : Term)
    (ht : Part (t.layout p) A.function.layout) (hreads : t.Reads known) {q : Region}
    (hf : f.Tracked A T q known)
    (hpath : f.path pc = true → T A.path p.block ∨ t.isPlain σ.sources = true) :
    Sat (Machine.Tracked σ.graph entry T) (evalIn σ call A.chain t pc f) (A.Holds T t.node) :=
  sat_eval h t ht hreads (fun _ hid => hf.holds hid) hpath

/-- The block around an assignment governs its targets, and its sources flow into
them. -/
theorem mem_edges_under {targets : List NodeId} (hid : id ∈ targets) (sources : List NodeId)
    (definitions : List Definition) :
    ⟨p.block, id⟩ ∈ (p.assign targets sources definitions).edges :=
  List.mem_append_left _ (List.mem_map_of_mem hid)

theorem mem_edges_source {targets : List NodeId} (hid : id ∈ targets) (source : NodeId)
    (definitions : List Definition) :
    ⟨source, id⟩ ∈ (p.assign targets [source] definitions).edges := by
  refine List.mem_append_right _ ?_
  simpa using hid

/-- A value that a definition gives. -/
theorem Tracks.fills (h : Tracks σ entry T call) {l : Layout} (hl : Part l A.function.layout)
    {d : Definition} (hd : d ∈ A.function.layout.definitions)
    (hedge : ⟨p.block, d.target⟩ ∈ l.edges) {v : Value}
    (hword : (Constant.transfer (Constant.solve A.function.layout.definitions) d).Allows v.word)
    (htaint : v.tainted = true → CanTaint σ.graph d.target → T A.path d.target) :
    Fills A T p (d.target, v) :=
  ⟨A.laid.defined d hd, Activation.allows_of_mem hd hword, htaint, A.edge h.spreads hl hedge⟩

/-- Code that keeps track: from a tracked frame, and under tainted control only if
taint reaches the governing block, it comes to a tracked frame. -/
def KeepsTrack (A : Activation σ.graph entry) (T : List SiteRef → NodeId → Prop) (call : Invoke)
    (rounds : Nat) (p : Region) (known : NodeId → Prop) (code : Code) : Prop :=
  ∀ pc f, (pc = true → T A.path p.block) → f.Tracked A T p known →
    Sat (Machine.Tracked σ.graph entry T) (exec σ call A.chain rounds code pc f)
      (Ends A T p known code)

section Forms

-- The run of a form is by definition the bind of the runs of its parts, so the rules
-- for `Sat` apply to it as it stands.
variable {rounds : Nat} {targets : List NodeId} {args : List Term}

/-- Two pieces of code that keep track do so in sequence. -/
theorem KeepsTrack.seq {first second : Code} (hfirst : KeepsTrack A T call rounds p known first)
    (hsecond : KeepsTrack A T call rounds p (fun id => known id ∨ id ∈ first.assigned) second) :
    KeepsTrack A T call rounds p known (.seq first second) := by
  intro pc f hpc hf
  refine (hfirst pc f hpc hf).bind fun ⟨f₁, exit⟩ h₁ => ?_
  cases exit with
  | next =>
    refine (hsecond pc f₁ hpc h₁.next).imp
      fun r hr => { hr with words := fun id hid => hr.words id ?_ }
    rcases hid with hid | ⟨hexit, hid⟩
    · exact Or.inl (Or.inl hid)
    · exact (List.mem_append.mp hid).elim (fun hid => Or.inl (Or.inr hid))
        fun hid => Or.inr ⟨hexit, hid⟩
  | broke => exact sat_pure (h₁.tracked.ends (nomatch ·))
  | continued => exact sat_pure (h₁.tracked.ends (nomatch ·))
  | left => exact sat_pure (h₁.tracked.ends (nomatch ·))

variable (h : Tracks σ entry T call)

include h

/-- The body of a case stands below the block of the case. -/
theorem Tracks.case {selector block : NodeId} {body : Code}
    (hgoverned : Part (p.governed selector block) A.function.layout)
    (hkeeps : KeepsTrack A T call rounds { p with block } known body)
    (hpc : pc = true → T A.path p.block ∨ T A.path selector) (hf : f.Tracked A T p known) :
    Sat (Machine.Tracked σ.graph entry T) (exec σ call A.chain rounds body pc f)
      fun r => r.1.Tracked A T p known :=
  (hkeeps pc f (fun htrue => h.governed hgoverned (hpc htrue)) (hf.region rfl rfl)).imp
    fun _ hr => hr.tracked.region rfl rfl

variable (hp : p.Nested A T)

include hp

theorem Tracks.constant {value : Int}
    (hcode : Part (Code.layout p (.constant targets value)) A.function.layout) :
    KeepsTrack A T call rounds p known (.constant targets value) := by
  intro pc f hpc hf
  refine sat_pure ((hf.writeAll h.fits (hf.path hp hpc) ?_).ends_next ?_)
  · intro e he
    obtain ⟨id, hid, rfl⟩ := List.mem_map.mp he
    exact h.fills hcode (hcode.definitions (List.mem_map_of_mem hid)) (mem_edges_under hid _ _)
      (Knowledge.allows_constant value) (nomatch ·)
  · exact fun id hid => Or.inl (by simpa [Code.assigned, Function.comp_def] using hid)

theorem Tracks.copy {source : NodeId} (hsource : known source)
    (hcode : Part (Code.layout p (.copy targets source)) A.function.layout) :
    KeepsTrack A T call rounds p known (.copy targets source) := by
  intro pc f hpc hf
  refine sat_pure ((hf.writeAll h.fits (hf.path hp hpc) ?_).ends_next ?_)
  · intro e he
    obtain ⟨id, hid, rfl⟩ := List.mem_map.mp he
    refine h.fills hcode (hcode.definitions (List.mem_map_of_mem hid)) (mem_edges_under hid _ _)
      (hf.words source hsource).known fun htainted hcan => ?_
    exact A.edge h.spreads hcode (mem_edges_source hid source _) hcan (hf.taint source htainted).1
  · exact fun id hid => Or.inl (by simpa [Code.assigned, Function.comp_def] using hid)

theorem Tracks.compute {target : NodeId} {name : String} (hreads : Term.ReadsAll known args)
    (hcode : Part (Code.layout p (.compute target name args)) A.function.layout) :
    KeepsTrack A T call rounds p known (.compute target name args) := by
  intro pc f hpc hf
  have hpath := hf.path hp hpc
  obtain ⟨hfirst, happly⟩ := hcode.of_append
  obtain ⟨hargs, hassign⟩ := hfirst.of_append
  have hd : .application target name (args.map (·.node)) ∈ A.function.layout.definitions :=
    happly.definitions List.mem_cons_self
  refine (sat_evalAll h args hargs hreads (fun _ => hf.holds) fun htrue =>
    Or.inl (hpath htrue)).bind fun values hvalues => ?_
  refine (Call.Placed.sat h.fits h.spreads ⟨happly.applications List.mem_cons_self, hd, hvalues,
    fun htrue => Or.inl (hpath htrue)⟩).bind fun v hv => sat_pure ?_
  have hwrite := hf.write h.fits hpath (e := (target, v)) ⟨A.laid.defined _ hd, hv.word,
    fun htainted _ => (hv.taint htainted).1,
    A.edge h.spreads hassign (mem_edges_under List.mem_cons_self _ _)⟩
  refine { hwrite with words := fun id hid => hwrite.words id (hid.imp_right fun hid => ?_) }
  exact List.mem_singleton.mp hid.2

theorem Tracks.scatter {value : Term} (hreads : value.Reads known)
    (hcode : Part (Code.layout p (.scatter value targets)) A.function.layout) :
    KeepsTrack A T call rounds p known (.scatter value targets) := by
  intro pc f hpc hf
  have hpath := hf.path hp hpc
  obtain ⟨hvalue, hassign⟩ := hcode.of_append
  refine (sat_evalIn h value hvalue hreads hf fun htrue => Or.inl (hpath htrue)).bind
    fun v hv => (sat_drawAll v.tainted targets).bind fun entries hentries => sat_pure ?_
  refine (hf.writeAll h.fits hpath ?_).ends_next fun id hid => Or.inl (hentries.1 ▸ hid)
  rintro ⟨id, w⟩ he
  have hid : id ∈ targets := hentries.1 ▸ List.mem_map_of_mem (f := Prod.fst) he
  refine h.fills hassign (hassign.definitions (List.mem_map_of_mem hid))
    (mem_edges_under hid _ _) (Knowledge.allows_varying _) fun htainted hcan => ?_
  rw [hentries.2 _ he] at htainted
  exact A.edge h.spreads hassign (mem_edges_source hid value.node _) hcan (hv.taint htainted).1

theorem Tracks.callInto {function : String} {loc : Loc} (hreads : Term.ReadsAll known args)
    (hcode : Part (Code.layout p (.call function args targets loc)) A.function.layout) :
    KeepsTrack A T call rounds p known (.call function args targets loc) := by
  intro pc f hpc hf
  have hpath := hf.path hp hpc
  obtain ⟨hfirst, hsite⟩ := hcode.of_append
  obtain ⟨hargs, hassign⟩ := hfirst.of_append
  obtain ⟨i, hi⟩ := A.exists_site (hsite.sites List.mem_cons_self)
  have hd {id : NodeId} (hid : id ∈ targets) : .arbitrary id ∈ A.function.layout.definitions :=
    hsite.definitions (List.mem_map_of_mem hid)
  refine (sat_evalAll h args hargs hreads (fun _ => hf.holds) fun htrue =>
    Or.inl (hpath htrue)).bind fun values hvalues => ?_
  refine (h.invokes A.calls hi hpath (hvalues.imp fun _ _ hv htrue => (hv.taint htrue).1)).bind
    fun results hresults => sat_pure ?_
  refine (hf.writeAll h.fits hpath ?_).ends_next fun id hid =>
    Or.inr (A.allows_arbitrary (hd hid))
  rintro ⟨id, w⟩ he
  have hid : id ∈ targets := (List.of_mem_zip he).1
  exact h.fills hassign (hd hid) (mem_edges_under hid _ _) (Knowledge.allows_varying _)
    (hresults (id, w) he)

/-- The body of a branch runs in the block that its condition governs. -/
theorem Tracks.branch {condition : Term} {block : NodeId} {body : Code}
    (hreads : condition.Reads known)
    (hcode : Part (Code.layout p (.branch condition block body)) A.function.layout)
    (hkeeps : KeepsTrack A T call rounds { p with block } known body) :
    KeepsTrack A T call rounds p known (.branch condition block body) := by
  intro pc f hpc hf
  have hpath := hf.path hp hpc
  obtain ⟨hfirst, hbody⟩ := hcode.of_append
  obtain ⟨hcondition, hgoverned⟩ := hfirst.of_append
  have hnested := h.nested hgoverned hp
  refine (sat_evalIn h condition hcondition hreads hf fun htrue => Or.inl (hpath htrue)).bind
    fun v hv => ?_
  have hblock (htainted : v.tainted = true) : T A.path block :=
    h.governed hgoverned (Or.inr (hv.taint htainted).1)
  have hguard : (f.guard body.breaks body.leaves v.tainted).Tracked A T p known :=
    hf.guard hp
      (body.isSome_loop (p := { p with block }) fun loop hmem =>
        A.laid.checked.jumps loop (hbody.jumps hmem))
      fun htainted => h.targets (p := { p with block }) body hbody (hblock htainted)
  split
  · exact sat_pure (hguard.ends fun _ => rfl)
  · refine (hkeeps _ _ (fun htrue => ?_) (hguard.region rfl rfl)).imp fun r hr => ?_
    · exact (Bool.or_eq_true _ _ |>.mp htrue).elim
        (fun htrue => h.governed hgoverned (Or.inl (hpc htrue))) hblock
    · have hafter : r.1.Tracked A T p known := hr.tracked.region rfl rfl
      exact hafter.ends fun _ => rfl

/-- The case that is run stands in a block that the selector governs. -/
theorem Tracks.switch {selector : Term} {cases : Cases} (hreads : selector.Reads known)
    (hcode : Part (Code.layout p (.switch selector cases)) A.function.layout)
    (hkeeps : ∀ word pc f, (pc = true → T A.path p.block ∨ T A.path selector.node) →
      f.Tracked A T p known →
      Sat (Machine.Tracked σ.graph entry T) (execCases σ call A.chain rounds cases word pc f)
        fun r => r.1.Tracked A T p known) :
    KeepsTrack A T call rounds p known (.switch selector cases) := by
  intro pc f hpc hf
  have hpath := hf.path hp hpc
  obtain ⟨hselector, hcases⟩ := hcode.of_append
  refine (sat_evalIn h selector hselector hreads hf fun htrue => Or.inl (hpath htrue)).bind
    fun v hv => ?_
  have hguard : (f.guard cases.breaks cases.leaves v.tainted).Tracked A T p known :=
    hf.guard hp
      (cases.isSome_loop fun loop hmem => A.laid.checked.jumps loop (hcases.jumps hmem))
      fun htainted => cases.keepsTargets (A.keeps h.spreads hcases) (h.canTaint hcases)
        (Or.inr (hv.taint htainted).1)
  refine (hkeeps v.word _ _ (fun htrue => ?_) hguard).imp fun r hr => hr.ends fun _ => rfl
  exact (Bool.or_eq_true _ _ |>.mp htrue).imp hpc fun htainted => (hv.taint htainted).1

/-- A loop keeps track if its parts do, and if its condition is plain: later rounds
evaluate it under their own taint. -/
theorem Tracks.loop {init body post : Code} {condition : Term} {block : NodeId}
    (hplain : condition.isPlain σ.sources = true)
    (hreads : condition.Reads fun id => known id ∨ id ∈ init.assigned)
    (hcode : Part (Code.layout p (.loop init condition block body post)) A.function.layout)
    (hstart : KeepsTrack A T call rounds p known init)
    (hround : KeepsTrack A T call rounds (p.looping block)
      (fun id => known id ∨ id ∈ init.assigned) body)
    (hnext : KeepsTrack A T call rounds (p.looping block)
      (fun id => known id ∨ id ∈ init.assigned) post) :
    KeepsTrack A T call rounds p known (.loop init condition block body post) := by
  intro pc f hpc hf
  obtain ⟨hrest, hpost⟩ := hcode.of_append
  obtain ⟨hrest, hbody⟩ := hrest.of_append
  obtain ⟨hrest, hgoverned⟩ := hrest.of_append
  have hcondition := hrest.of_append.2.of_append.1
  have hnested := h.nested_looping hgoverned hp
  refine (hstart pc f hpc hf).bind fun ⟨f₁, exit⟩ h₁ => ?_
  cases exit with
  | next =>
    have hf₁ := h₁.next
    have hfirst : Frame.Tracked { f₁ with loopTaint := false } A T (p.looping block)
        fun id => known id ∨ id ∈ init.assigned :=
      ⟨hf₁.taint, hf₁.words, (nomatch ·), hf₁.leave⟩
    refine (sat_iterate hnested ?_ ?_ ?_ ?_ rounds ?_ hfirst).bind fun ⟨after, exit⟩ hafter => ?_
    · intro pc f hf
      exact (sat_evalIn h condition hcondition hreads hf fun _ => Or.inr hplain).imp
        fun v hv htainted => h.governed hgoverned (Or.inr (hv.taint htainted).1)
    · intro hblock
      exact ((h.targets (p := p.looping block) body hbody hblock).or
        (h.targets (p := p.looping block) post hpost hblock)).root
    · exact fun pc f hpc hf => (hround pc f hpc hf).imp fun _ hr => hr.tracked
    · exact fun pc f hpc hf => (hnext pc f hpc hf).imp fun _ hr => hr.tracked
    · intro htrue
      rcases Bool.or_eq_true _ _ |>.mp htrue with htrue | htrue
      · exact h.governed hgoverned (Or.inl (hpc htrue))
      · obtain ⟨loop, hloop, hreach⟩ := hf₁.loop htrue
        exact h.governed hgoverned (Or.inl (hp.loop loop hloop hreach))
    · exact sat_pure ⟨hafter.taint, fun id hid => hafter.words id (hid.imp_right And.right),
        hf₁.loop, hafter.leave⟩
  | broke => exact sat_pure (h₁.tracked.ends (nomatch ·))
  | continued => exact sat_pure (h₁.tracked.ends (nomatch ·))
  | left => exact sat_pure (h₁.tracked.ends (nomatch ·))

end Forms

mutual

/-- Running code keeps track. -/
theorem keepsTrack (h : Tracks σ entry T call) (rounds : Nat) (code : Code) {p : Region}
    {known : NodeId → Prop} (hcode : Part (code.layout p) A.function.layout)
    (hplain : ∀ l ∈ code.loops p, l.condition.isPlain σ.sources = true)
    (hreads : code.Reads known) (hp : p.Nested A T) :
    KeepsTrack A T call rounds p known code := by
  cases code with
  | skip => exact fun _ _ _ hf => sat_pure (hf.ends fun _ => rfl)
  | declare targets => exact fun _ _ _ hf => sat_pure (hf.ends fun _ => rfl)
  | seq first second =>
    obtain ⟨hfirst, hsecond⟩ := hcode.of_append
    obtain ⟨hplain₁, hplain₂⟩ := List.forall_mem_append.mp hplain
    exact (keepsTrack h rounds first hfirst hplain₁ hreads.1 hp).seq
      (keepsTrack h rounds second hsecond hplain₂ hreads.2 hp)
  | constant targets value => exact h.constant hp hcode
  | copy targets source => exact h.copy hp hreads hcode
  | compute target name args => exact h.compute hp hreads hcode
  | scatter value targets => exact h.scatter hp hreads hcode
  | call function args targets loc => exact h.callInto hp hreads hcode
  | branch condition block body =>
    obtain ⟨hfirst, hbody⟩ := hcode.of_append
    exact h.branch hp hreads.1 hcode
      (keepsTrack h rounds body hbody hplain hreads.2 (h.nested hfirst.of_append.2 hp))
  | switch selector cases =>
    refine h.switch hp hreads.1 hcode fun word pc f hpc hf => ?_
    exact sat_execCases h rounds cases word hcode.of_append.2 hplain hreads.2 hp hpc hf
  | loop init condition block body post =>
    obtain ⟨hrest, hpost⟩ := hcode.of_append
    obtain ⟨hrest, hbody⟩ := hrest.of_append
    obtain ⟨hrest, hgoverned⟩ := hrest.of_append
    obtain ⟨hplain₁, hplain⟩ := List.forall_mem_append.mp hplain
    obtain ⟨hplain₂, hplain⟩ := List.forall_mem_cons.mp hplain
    obtain ⟨hplain₃, hplain₄⟩ := List.forall_mem_append.mp hplain
    obtain ⟨hreads₁, hreads₂, hreads₃, hreads₄⟩ := hreads
    have hnested := h.nested_looping hgoverned hp
    exact h.loop hp hplain₂ hreads₂ hcode
      (keepsTrack h rounds init hrest.of_append.1 hplain₁ hreads₁ hp)
      (keepsTrack h rounds body hbody hplain₃ hreads₃ hnested)
      (keepsTrack h rounds post hpost hplain₄ hreads₄ hnested)
  | breakOut => exact fun _ _ _ hf => sat_pure (hf.ends (nomatch ·))
  | continueOn => exact fun _ _ _ hf => sat_pure (hf.ends (nomatch ·))
  | leave => exact fun _ _ _ hf => sat_pure (hf.ends (nomatch ·))

theorem sat_execCases (h : Tracks σ entry T call) (rounds : Nat) (cases : Cases) (word : Int)
    {p : Region} {known : NodeId → Prop} {pc : Bool} {f : Frame}
    {selector : NodeId} (hcases : Part (cases.layout p selector) A.function.layout)
    (hplain : ∀ l ∈ cases.loops p, l.condition.isPlain σ.sources = true)
    (hreads : cases.Reads known) (hp : p.Nested A T)
    (hpc : pc = true → T A.path p.block ∨ T A.path selector) (hf : f.Tracked A T p known) :
    Sat (Machine.Tracked σ.graph entry T) (execCases σ call A.chain rounds cases word pc f)
      fun r => r.1.Tracked A T p known := by
  cases cases with
  | nil => exact sat_pure hf
  | fallback block body =>
    obtain ⟨hgoverned, hbody⟩ := hcases.of_append
    rw [execCases]
    exact h.case hgoverned
      (keepsTrack h rounds body hbody hplain hreads (h.nested hgoverned hp)) hpc hf
  | cons value block body rest =>
    obtain ⟨hfirst, hrest⟩ := hcases.of_append
    obtain ⟨hgoverned, hbody⟩ := hfirst.of_append
    obtain ⟨hplain₁, hplain₂⟩ := List.forall_mem_append.mp hplain
    rw [execCases]
    split
    · exact h.case hgoverned
        (keepsTrack h rounds body hbody hplain₁ hreads.1 (h.nested hgoverned hp)) hpc hf
    · exact sat_execCases h rounds rest word hrest hplain₂ hreads.2 hp hpc hf

end

/-- A function starts with its arguments, and with zero in its return
variables. -/
theorem Tracks.frame (h : Tracks σ entry T call) (A : Activation σ.graph entry) {args : List Value}
    (hpc : pc = true → T A.path A.function.root)
    (hargs : ∀ e ∈ A.function.params.zip args, e.2.tainted = true → CanTaint σ.graph e.1 →
      T A.path e.1) :
    (A.function.frame σ pc args).Tracked A T A.function.region A.function.Knows := by
  have hinner : Part A.function.inner A.function.layout := part_append_right _ _
  obtain ⟨hhead, _⟩ := hinner.of_append
  obtain ⟨hparams, hreturns⟩ := hhead.of_append
  have hparam {id : NodeId} (hid : id ∈ A.function.params) :
      .arbitrary id ∈ A.function.layout.definitions :=
    hparams.definitions (List.mem_map_of_mem hid)
  have hstart : ({} : Frame).Tracked A T A.function.region fun id => id = 0 :=
    ⟨fun _ h => (nomatch h), fun id hid => hid ▸ h.fits.allows_unbound A 0, (nomatch ·),
      (nomatch ·)⟩
  have hpath (htrue : ({} : Frame).path pc = true) : T A.path A.function.root :=
    hpc (by simpa [Frame.path] using htrue)
  have hentries : ∀ e ∈ A.function.params.zip args ++ A.function.returns.map (·, ({} : Value)),
      Fills A T A.function.region e := by
    intro e he
    rcases List.mem_append.mp he with he | he
    · obtain ⟨id, v⟩ := e
      have hid : id ∈ A.function.params := (List.of_mem_zip he).1
      exact h.fills hparams (hparam hid) (List.mem_append_left _ (List.mem_map_of_mem hid))
        (Knowledge.allows_varying _) (hargs (id, v) he)
    · obtain ⟨id, hid, rfl⟩ := List.mem_map.mp he
      exact h.fills hreturns (hreturns.definitions (List.mem_map_of_mem hid))
        (List.mem_append_left _ (List.mem_map_of_mem hid)) (Knowledge.allows_constant 0) (nomatch ·)
  have hall := hstart.writeAll h.fits hpath hentries
  refine { hall with words := fun id hid => ?_ }
  rcases hid with hid | hid | hid
  · exact hall.words id (Or.inl hid)
  · exact A.allows_arbitrary (hparam hid) _
  · refine hall.words id (Or.inr ?_)
    simp [hid, Function.comp_def]

end Simulation

end YulTaint.Execution
