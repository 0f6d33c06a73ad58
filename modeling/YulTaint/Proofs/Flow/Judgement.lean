import Mathlib.Tactic
import YulTaint.Proofs.Flow.Walked
import YulTaint.Proofs.Program.Address

/-!
The walk over a program goes through if and only if the program is well formed. It
ends with a structural fault otherwise, or for want of a field: two kinds of nodes
are taken for what they should be before they are looked at. Each function of the
walk is judged by one condition on the tree. It decides all but the bodies of the
functions that are queued on the way, so the condition is met if and only if the
walk goes through and everything it queues is well formed.
-/

namespace YulTaint

structure Fault.IsStructural (fault : Fault) : Prop where
  cause : fault.cause.code.kind = .structural
  code : fault.givenCode = none

theorem Fault.IsStructural.kind {fault : Fault} (h : fault.IsStructural) :
    fault.kind = .structural := by
  rw [Fault.kind, Fault.code, h.code]
  exact h.cause

theorem Malformation.isStructural (reason : Malformation) (loc : Loc) :
    (reason.located loc).IsStructural :=
  ⟨rfl, rfl⟩

namespace Node

/-- The field that is read of the first part of a loop and that it has not. -/
def unfitInit? : Node → Option Missing
  | .block .. | .program .. => none
  | init => some (.field init.kind "statements")

/-- The field that is read of an arm, taken for a case, and that it has not. -/
def unfitArm? (arm : Node) : Option Missing :=
  match arm with
  | .caseArm .. | .literal .. | .declaration _ none _ => none
  | .declaration .. | .assignment .. => some (.field arm.kind "body")
  | _ => some (.field arm.kind "value")

/-- The fields that are read of the parts of a node and that these have not. -/
def lacking : Node → List Missing
  | .loop init .. => init.unfitInit?.toList
  | .switch _ arms _ _ => arms.filterMap unfitArm?
  | _ => []

/-- Somewhere in a tree a node is taken for one with a field that it has not. -/
inductive Lacks : Node → Missing → Prop
  | here {n : Node} {what : Missing} (h : what ∈ n.lacking) : n.Lacks what
  | inside {n part : Node} {what : Missing} (hpart : part ∈ n.parts) (h : part.Lacks what) :
      n.Lacks what

def LacksOnly (S : Missing → Prop) (n : Node) : Prop :=
  ∀ what, n.Lacks what → S what

theorem LacksOnly.part {S : Missing → Prop} {n part : Node} (h : n.LacksOnly S)
    (hpart : part ∈ n.parts) : part.LacksOnly S :=
  fun what hwhat => h what (.inside hpart hwhat)

end Node

/-- A failure that is a fault of the structure of a program, or the lack of a field. -/
def Failure.IsDue (S : Missing → Prop) : Failure → Prop
  | .fault f => f.IsStructural
  | .missing what => S what

namespace Flow

def FunctionEntry.signature (e : FunctionEntry) : Signature :=
  { name := e.name, params := e.params.length, returns := e.returns.length }

def FunctionEntry.definition (e : FunctionEntry) : Node :=
  .function e.name e.params e.returns e.body e.loc

def seen (frames : List FunctionFrame) : List Signature :=
  frames.flatten.map (·.signature)

/-- Functions with names of their own, none of them a builtin's. -/
structure AreUnique (fs : List Signature) : Prop where
  distinct : (fs.map (·.name)).Nodup
  isNoBuiltin : ∀ f ∈ fs, Builtin.lookup? f.name = none

def PendingFunction.IsFine (f : PendingFunction) : Prop :=
  Sight.IsStatement { functions := seen f.visible } f.entry.definition

/-- A queued function as the walk leaves it. -/
structure PendingFunction.IsQueued (S : Missing → Prop) (f : PendingFunction) : Prop where
  scope : f.entry.scope ≠ mainScope
  visible : AreUnique (seen f.visible)
  lacks : f.entry.body.LacksOnly S

/-- A context and variables show what a place of the program sees. -/
structure Shows (ctx : Context) (vars : Variables) (s : WalkState) (v : Sight) : Prop where
  functions : v.functions = seen ctx.functions
  names : ∀ name, name ∈ v.locals ↔ name ∈ vars.map (·.1)
  inLoop : v.inLoop = ctx.loop.isSome
  inFunction : v.inFunction = (ctx.scope != mainScope)
  unique : AreUnique v.functions
  distinct : (vars.map (·.2)).Nodup
  live : ∀ entry ∈ vars, entry.2 < s.graph.size

theorem Shows.mono {ctx : Context} {vars : Variables} {s t : WalkState} {v : Sight}
    (h : Shows ctx vars s v) (hsize : s.graph.size ≤ t.graph.size) : Shows ctx vars t v :=
  ⟨h.functions, h.names, h.inLoop, h.inFunction, h.unique, h.distinct,
    fun entry hentry => (h.live entry hentry).trans_le hsize⟩

section Judges

variable {α β : Type} {s t : WalkState} {P P' : Prop} {Q Q' : α → WalkState → Prop} {m : Walk α}
  {k : α → Walk β} {a : α} {fault : Fault} {failure : Failure} {R : β → WalkState → Prop}
  {S : Missing → Prop}

/-- A walk decides a condition, up to what it queues: it fails only if the condition
does, and otherwise the condition is that all functions it queued are well formed. -/
def Judges (S : Missing → Prop) (m : Walk α) (s : WalkState) (P : Prop)
    (Q : α → WalkState → Prop) : Prop :=
  match m s with
  | .ok a t =>
    (∃ new, t.pending = s.pending ++ new ∧ (∀ f ∈ new, f.IsQueued S) ∧
      (P ↔ ∀ f ∈ new, f.IsFine)) ∧ s.graph.size ≤ t.graph.size ∧ Q a t
  | .error failure _ => ¬ P ∧ failure.IsDue S

def Passes (m : Walk α) : Prop :=
  ∀ s, ∃ a t, m s = .ok a t ∧ t.pending = s.pending ∧ s.graph.size ≤ t.graph.size

theorem judges_of_eq (h : m s = .ok a t) (hpending : t.pending = s.pending)
    (hsize : s.graph.size ≤ t.graph.size) (hP : P) (hQ : Q a t) : Judges S m s P Q := by
  unfold Judges
  rw [h]
  refine ⟨⟨[], ?_, List.forall_mem_nil _, ?_⟩, hsize, hQ⟩
  · rw [List.append_nil, hpending]
  · exact iff_of_true hP (List.forall_mem_nil _)

theorem judges_pure (hP : P) (hQ : Q a s) : Judges S (pure a) s P Q :=
  judges_of_eq rfl rfl (Nat.le_refl _) hP hQ

theorem judges_throw (hP : ¬ P) (hfailure : failure.IsDue S) : Judges S (throw failure) s P Q :=
  ⟨hP, hfailure⟩

theorem judges_reject (hP : ¬ P) (hfault : fault.IsStructural) : Judges S (reject fault) s P Q :=
  judges_throw hP hfault

theorem judges_require {condition : Bool} {fault : Fault} (hP : P ↔ condition = true)
    (hfault : fault.IsStructural) : Judges S (require condition fault) s P fun _ t => t = s ∧ P := by
  unfold require
  split
  · rename_i hcondition
    exact judges_pure (hP.mpr hcondition) ⟨rfl, hP.mpr hcondition⟩
  · rename_i hcondition
    exact judges_reject (fun h => hcondition (hP.mp h)) hfault

theorem Passes.judges (h : Passes m) (hP : P) : Judges S m s P fun _ _ => True := by
  obtain ⟨a, t, heq, hpending, hsize⟩ := h s
  exact judges_of_eq heq hpending hsize hP trivial

theorem Judges.congr (h : Judges S m s P Q) (hP : P' ↔ P) : Judges S m s P' Q := by
  rwa [propext hP]

/-- What holds of the run itself. -/
theorem Judges.ran (h : Judges S m s P Q) :
    Judges S m s P fun a t => Q a t ∧ m s = .ok a t := by
  unfold Judges at h ⊢
  split at h
  · rename_i hrun
    exact ⟨h.1, h.2.1, h.2.2, hrun⟩
  · exact h

theorem Judges.imp (h : Judges S m s P Q) (hQ : ∀ a t, Q a t → Q' a t) :
    Judges S m s P Q' := by
  unfold Judges at h ⊢
  split at h
  · exact ⟨h.1, h.2.1, hQ _ _ h.2.2⟩
  · exact h

theorem bind_of_ok (h : m s = .ok a t) :
    (m >>= k) s = k a t := by
  change EStateM.bind m k s = _
  rw [EStateM.bind, h]

theorem bind_of_error (h : m s = .error failure t) :
    (m >>= k) s = .error failure t := by
  change EStateM.bind m k s = _
  rw [EStateM.bind, h]

/-- One walk after the other decides both conditions. -/
theorem Judges.bind (hm : Judges S m s P Q)
    (hk : ∀ a t, Q a t → s.graph.size ≤ t.graph.size → Judges S (k a) t P' R) :
    Judges S (m >>= k) s (P ∧ P') R := by
  unfold Judges at hm ⊢
  cases hrun : m s with
  | error failure t =>
    rw [hrun] at hm
    rw [bind_of_error hrun]
    exact ⟨fun h => hm.1 h.1, hm.2⟩
  | ok a t =>
    rw [hrun] at hm
    rw [bind_of_ok hrun]
    obtain ⟨⟨new, hpending, hqueued, hfine⟩, hsize, hQ⟩ := hm
    have hnext := hk a t hQ hsize
    unfold Judges at hnext
    cases hrun' : k a t with
    | error failure u =>
      rw [hrun'] at hnext
      exact ⟨fun h => hnext.1 h.2, hnext.2⟩
    | ok b u =>
      rw [hrun'] at hnext
      obtain ⟨⟨new', hpending', hqueued', hfine'⟩, hsize', hR⟩ := hnext
      refine ⟨⟨new ++ new', ?_, ?_, ?_⟩, hsize.trans hsize', hR⟩
      · rw [hpending', hpending, List.append_assoc]
      · exact List.forall_mem_append.mpr ⟨hqueued, hqueued'⟩
      · rw [List.forall_mem_append, hfine, hfine']

theorem Passes.bind_judges (hm : Passes m)
    (hk : ∀ a t, s.graph.size ≤ t.graph.size → Judges S (k a) t P R) :
    Judges S (m >>= k) s P R :=
  ((hm.judges trivial).bind fun a t _ hsize => hk a t hsize).congr (iff_of_eq (true_and P).symm)

theorem Judges.bind_passes (hm : Judges S m s P Q) (hk : ∀ a, Passes (k a)) :
    Judges S (m >>= k) s P fun _ _ => True :=
  (hm.bind fun a _ _ _ => (hk a).judges trivial).congr (iff_of_eq (and_true P).symm)

/-- What is returned in the end. -/
theorem Judges.bind_pure {f : α → β} (hm : Judges S m s P Q)
    (hR : ∀ a t, Q a t → s.graph.size ≤ t.graph.size → R (f a) t) :
    Judges S (m >>= fun a => pure (f a)) s P R :=
  (hm.bind fun a t hQ hsize => judges_pure trivial (hR a t hQ hsize)).congr
    (iff_of_eq (and_true P).symm)

theorem Passes.bind (hm : Passes m) (hk : ∀ a, Passes (k a)) :
    Passes (m >>= k) := by
  intro s
  obtain ⟨a, t, heq, hpending, hsize⟩ := hm s
  obtain ⟨b, u, heq', hpending', hsize'⟩ := hk a t
  exact ⟨b, u, (bind_of_ok heq).trans heq', hpending'.trans hpending, hsize.trans hsize'⟩

theorem passes_pure (a : α) : Passes (pure a : Walk α) :=
  fun s => ⟨a, s, rfl, rfl, Nat.le_refl _⟩

/-- A walk decides a condition for good. -/
def Settles (S : Missing → Prop) (m : Walk α) (s : WalkState) (P : Prop) : Prop :=
  match m s with
  | .ok _ _ => P
  | .error failure _ => ¬ P ∧ failure.IsDue S

theorem settles_of_eq {m' : Walk α} {s' : WalkState} (heq : m s = m' s') (h : Settles S m' s' P) :
    Settles S m s P := by
  unfold Settles at h ⊢
  rwa [heq]

theorem settles_of_ok (h : m s = .ok a t) (hP : P) : Settles S m s P := by
  unfold Settles
  rwa [h]

/-- A walk that decides a condition up to what it queues, and one that decides
the rest. -/
theorem Judges.bind_settles {m : Walk α} {k : α → Walk β} (hm : Judges S m s P Q) (hP : P' → P)
    (hk : ∀ a t new, m s = .ok a t → t.pending = s.pending ++ new → (∀ f ∈ new, f.IsQueued S) →
      (P ↔ ∀ f ∈ new, f.IsFine) → Settles S (k a) t P') : Settles S (m >>= k) s P' := by
  unfold Judges at hm
  cases hrun : m s with
  | error failure t =>
    rw [hrun] at hm
    unfold Settles
    rw [bind_of_error hrun]
    exact ⟨fun h => hm.1 (hP h), hm.2⟩
  | ok a t =>
    rw [hrun] at hm
    obtain ⟨⟨new, hpending, hqueued, hfine⟩, _⟩ := hm
    exact settles_of_eq (bind_of_ok hrun) (hk a t new hrun hpending hqueued hfine)

theorem Settles.bind_pure {f : α → β} (h : Settles S m s P) :
    Settles S (m >>= fun a => pure (f a)) s P := by
  unfold Settles at h
  cases hrun : m s with
  | error failure t =>
    rw [hrun] at h
    unfold Settles
    rw [bind_of_error hrun]
    exact h
  | ok a t =>
    rw [hrun] at h
    exact settles_of_ok (bind_of_ok hrun) h

end Judges

section Passes

variable (ctx : Context)

theorem passes_modifyGraph {f : Graph → Graph} (hf : ∀ g : Graph, g.size ≤ (f g).size) :
    Passes (modifyGraph f) :=
  fun s => ⟨(), _, rfl, rfl, hf s.graph⟩

theorem passes_addEdge (a b : NodeId) : Passes (addEdge ctx a b) :=
  passes_modifyGraph fun g => by rw [Graph.size_addEdge]

theorem passes_define (d : Definition) : Passes (define d) :=
  fun _ => ⟨(), _, rfl, rfl, Nat.le_refl _⟩

theorem passes_defineAll (ds : List Definition) : Passes (defineAll ds) :=
  fun _ => ⟨(), _, rfl, rfl, Nat.le_refl _⟩

theorem size_foldl_addEdge {α : Type} (sc : String) (source target : α → NodeId)
    (items : List α) (g : Graph) :
    (items.foldl (fun g x => g.addEdge sc (source x) (target x)) g).size = g.size := by
  induction items generalizing g with
  | nil => rfl
  | cons x rest ih => rw [List.foldl_cons, ih, Graph.size_addEdge]

theorem passes_temporary (stem : String) (loc : Loc) : Passes (temporary ctx stem loc) := by
  intro s
  refine ⟨_, _, (temporary_eq ctx stem loc s).trans (newVariable_eq _ _ _ _), rfl, ?_⟩
  rw [Graph.size_addEdge, Graph.size_addVariable]
  exact Nat.le_succ _

theorem passes_newGoverned (stem : String) (condition : NodeId) (loc : Loc) :
    Passes (newGoverned ctx stem condition loc) := by
  have hblock : Passes (newBlock ctx stem loc) := by
    intro s
    refine ⟨_, _, newBlock_eq ctx stem loc s, rfl, ?_⟩
    rw [Graph.size_addEdge, Graph.size_addBlock]
    exact Nat.le_succ _
  exact hblock.bind fun block => (passes_addEdge ctx _ _).bind fun _ => passes_pure block

theorem passes_deliver (target : Callee) (name : String) (operands : List NodeId)
    (result : NodeId) (loc : Loc) : Passes (deliver ctx target name operands result loc) := by
  cases target with
  | user entry => exact fun s => ⟨(), _, callSite_eq ctx entry _ _ loc s, rfl, Nat.le_refl _⟩
  | builtin => exact fun s => ⟨(), _, application_eq ctx name _ _ s, rfl, Nat.le_refl _⟩

theorem passes_deliverAll (target : Callee) (name : String) (operands results : List NodeId)
    (loc : Loc) : Passes (deliverAll ctx target name operands results loc) := by
  have hbuiltin : Passes (do
      let node ← temporary ctx "expr" loc
      application ctx name operands node
      distribute ctx node results) := by
    refine (passes_temporary ctx "expr" loc).bind fun node =>
      (passes_deliver ctx .builtin name operands node loc).bind fun _ s => ?_
    refine ⟨(), _, distribute_eq ctx node results s, rfl, ?_⟩
    exact Nat.le_of_eq (size_foldl_addEdge ctx.scope _ _ results s.graph).symm
  match target, results with
  | target, [result] => exact passes_deliver ctx target name operands result loc
  | .user entry, [] => exact fun s => ⟨(), _, callSite_eq ctx entry _ _ loc s, rfl, Nat.le_refl _⟩
  | .user entry, _ :: _ :: _ =>
    exact fun s => ⟨(), _, callSite_eq ctx entry _ _ loc s, rfl, Nat.le_refl _⟩
  | .builtin, [] => exact hbuiltin
  | .builtin, _ :: _ :: _ => exact hbuiltin

theorem passes_jump (target : NodeId) : Passes (jump ctx target) := by
  unfold jump
  split
  · exact passes_pure ()
  · exact passes_addEdge ctx _ _

end Passes

section Names

variable {ctx : Context} {vars : Variables} {s : WalkState} {v : Sight} {name : String}
  {S : Missing → Prop}

theorem Shows.function?_eq_none (h : Shows ctx vars s v) :
    ctx.function? name = none ↔ ∀ f ∈ v.functions, f.name ≠ name := by
  rw [Context.function?, ← List.find?_flatten, List.find?_eq_none, h.functions, seen,
    List.forall_mem_map]
  simp [FunctionEntry.signature]

/-- The function that a name refers to is the only one of that name. -/
theorem Shows.function?_eq_some (h : Shows ctx vars s v) {e : FunctionEntry}
    (he : ctx.function? name = some e) :
    e.name = name ∧ e.signature ∈ v.functions ∧
      ∀ f ∈ v.functions, f.name = name → f = e.signature := by
  rw [Context.function?, ← List.find?_flatten] at he
  have hname : e.name = name := by simpa using List.find?_some he
  have hmem : e.signature ∈ v.functions := by
    rw [h.functions]
    exact List.mem_map_of_mem (List.mem_of_find?_eq_some he)
  refine ⟨hname, hmem, fun f hf heq => ?_⟩
  exact List.inj_on_of_nodup_map h.unique.distinct hf hmem (heq.trans hname.symm)

theorem Shows.lookup_isNone (h : Shows ctx vars s v) :
    (vars.lookup name).isNone = true ↔ name ∉ v.locals := by
  rw [h.names]
  constructor
  · intro hnone hmem
    obtain ⟨id, hid⟩ := exists_lookup hmem
    rw [hid] at hnone
    cases hnone
  · intro hmem
    rw [lookup_eq_none_of_not_mem hmem]
    rfl

theorem Shows.declaring (h : Shows ctx vars s v) {t : WalkState} {name : String}
    (hsize : t.graph.size = s.graph.size + 1) :
    Shows ctx ((name, s.graph.size) :: vars) t (v.declaring [name]) := by
  refine ⟨h.functions, fun other => ?_, h.inLoop, h.inFunction, h.unique, ?_, ?_⟩
  · simp [Sight.declaring, h.names]
  · refine List.nodup_cons.mpr ⟨fun hmem => ?_, h.distinct⟩
    obtain ⟨entry, hentry, heq⟩ := List.mem_map.mp hmem
    exact (h.live entry hentry).ne heq
  · refine List.forall_mem_cons.mpr ⟨by rw [hsize]; exact Nat.lt_succ_self _, ?_⟩
    exact fun entry hentry => (h.live entry hentry).trans_le (by rw [hsize]; exact Nat.le_succ _)

/-- A variable is declared if and only if its name is free. -/
theorem newLocal_judges (h : Shows ctx vars s v) (name : String) (loc : Loc) :
    Judges S (newLocal ctx vars name loc) s (v.IsFree name) fun id t =>
      id = s.graph.size ∧ t.graph.size = s.graph.size + 1 := by
  have hfunction : ((∀ f ∈ v.functions, f.name ≠ name) ∧ Builtin.lookup? name = none) ↔
      ((ctx.function? name).isNone && !Builtin.isBuiltin name) = true := by
    rw [← h.function?_eq_none, Bool.and_eq_true, Option.isNone_iff_eq_none, Builtin.isBuiltin,
      Bool.not_eq_true', Option.isSome_eq_false_iff, Option.isNone_iff_eq_none]
  have hall : v.IsFree name ↔ name ∉ v.locals ∧
      ((∀ f ∈ v.functions, f.name ≠ name) ∧ Builtin.lookup? name = none) ∧ True :=
    ⟨fun hfree => ⟨hfree.isNoVariable, ⟨hfree.isNoFunction, hfree.isNoBuiltin⟩, trivial⟩,
      fun hfree => ⟨hfree.1, hfree.2.1.1, hfree.2.1.2⟩⟩
  refine Judges.congr ?_ hall
  refine (judges_require h.lookup_isNone.symm (Malformation.isStructural _ _)).bind ?_
  rintro _ t ⟨rfl, _⟩ _
  refine (judges_require hfunction (Malformation.isStructural _ _)).bind ?_
  rintro _ t ⟨rfl, _⟩ _
  refine judges_of_eq (newVariable_eq ctx _ loc t) rfl ?_ trivial ⟨rfl, ?_⟩
  · rw [Graph.size_addEdge, Graph.size_addVariable]
    exact Nat.le_succ _
  · rw [Graph.size_addEdge, Graph.size_addVariable]

theorem isFree_declaring {names : List String} {n : String} :
    (v.declaring names).IsFree n ↔ n ∉ names ∧ v.IsFree n := by
  constructor
  · intro h
    have hnames := h.isNoVariable
    rw [Sight.declaring, List.mem_append, not_or] at hnames
    exact ⟨hnames.1, hnames.2, h.isNoFunction, h.isNoBuiltin⟩
  · rintro ⟨hne, h⟩
    refine ⟨?_, h.isNoFunction, h.isNoBuiltin⟩
    rw [Sight.declaring, List.mem_append, not_or]
    exact ⟨hne, h.isNoVariable⟩

/-- Names can be declared together if they can be declared one after the other. -/
theorem free_append (first rest : List String) :
    ((first ++ rest).Nodup ∧ ∀ n ∈ first ++ rest, v.IsFree n) ↔
      (first.Nodup ∧ ∀ n ∈ first, v.IsFree n) ∧
        rest.Nodup ∧ ∀ n ∈ rest, (v.declaring first).IsFree n := by
  rw [List.nodup_append', List.forall_mem_append]
  simp only [isFree_declaring]
  constructor
  · rintro ⟨⟨hfirst, hrest, hdisjoint⟩, hfree, hfree'⟩
    exact ⟨⟨hfirst, hfree⟩, hrest, fun n hn => ⟨fun hmem => hdisjoint hmem hn, hfree' n hn⟩⟩
  · rintro ⟨⟨hfirst, hfree⟩, hrest, hothers⟩
    exact ⟨⟨hfirst, hrest, fun n hmem hn => (hothers n hn).1 hmem⟩, hfree,
      fun n hn => (hothers n hn).2⟩

theorem free_cons (name : String) (rest : List String) :
    ((name :: rest).Nodup ∧ ∀ n ∈ name :: rest, v.IsFree n) ↔
      v.IsFree name ∧ rest.Nodup ∧ ∀ n ∈ rest, (v.declaring [name]).IsFree n := by
  have h := free_append (v := v) [name] rest
  simpa using h

/-- The order of variables does not matter. -/
theorem Shows.reorder {w : Sight} (h : Shows ctx vars s v) (hfunctions : w.functions = v.functions)
    (hlocals : ∀ name, name ∈ w.locals ↔ name ∈ v.locals) (hloop : w.inLoop = v.inLoop)
    (hfunction : w.inFunction = v.inFunction) : Shows ctx vars s w :=
  ⟨hfunctions.trans h.functions, fun name => (hlocals name).trans (h.names name),
    hloop.trans h.inLoop, hfunction.trans h.inFunction, hfunctions ▸ h.unique, h.distinct, h.live⟩

theorem Shows.declaring_append {after : Variables} (first rest : List String)
    (h : Shows ctx after s ((v.declaring first).declaring rest)) :
    Shows ctx after s (v.declaring (first ++ rest)) := by
  refine h.reorder rfl (fun other => ?_) rfl rfl
  simp only [Sight.declaring, List.mem_append]
  tauto

/-- Names are declared in turn if and only if they are free and distinct. -/
theorem declareAll_judges (loc : Loc) (names : List String) (h : Shows ctx vars s v) :
    Judges S (declareAll ctx loc vars names) s (names.Nodup ∧ ∀ n ∈ names, v.IsFree n) fun r t =>
      Shows ctx r.1 t (v.declaring names) ∧ r.2.length = names.length := by
  induction names generalizing vars s v with
  | nil => exact judges_pure ⟨List.nodup_nil, List.forall_mem_nil _⟩ ⟨h, rfl⟩
  | cons name rest ih =>
    refine Judges.congr ?_ (free_cons name rest)
    rw [declareAll]
    refine (newLocal_judges h name loc).bind ?_
    rintro id t ⟨rfl, hsize⟩ _
    refine (ih (h.declaring hsize)).bind_pure ?_
    rintro ⟨after, ids⟩ u ⟨hshows, hlength⟩ _
    exact ⟨hshows.declaring_append [name] rest, congrArg (· + 1) hlength⟩

/-- A name is resolved if and only if a variable of that name is seen. -/
theorem resolveName_judges (h : Shows ctx vars s v) (name : String) (loc : Loc) :
    Judges S (resolveName ctx vars name loc) s (name ∈ v.locals) fun id t =>
      t = s ∧ vars.lookup name = some id := by
  unfold resolveName
  cases hlookup : vars.lookup name with
  | some id =>
    refine judges_pure ?_ ⟨rfl, rfl⟩
    rw [h.names]
    exact List.mem_map_of_mem (f := Prod.fst) (mem_of_lookup_eq_some hlookup)
  | none =>
    refine judges_reject (h.lookup_isNone.mp ?_) ⟨rfl, rfl⟩
    rw [hlookup]
    rfl

theorem resolveNames_judges (h : Shows ctx vars s v) (loc : Loc) (names : List String) :
    Judges S (resolveNames ctx vars loc names) s (∀ name ∈ names, name ∈ v.locals) fun ids t =>
      t = s ∧ List.Forall₂ (fun name id => vars.lookup name = some id) names ids := by
  induction names with
  | nil => exact judges_pure (List.forall_mem_nil _) ⟨rfl, .nil⟩
  | cons name rest ih =>
    refine Judges.congr ?_ List.forall_mem_cons
    rw [resolveNames]
    refine (resolveName_judges h name loc).bind ?_
    rintro id t ⟨rfl, hid⟩ _
    refine ih.bind_pure ?_
    rintro ids t ⟨rfl, hids⟩ _
    exact ⟨rfl, .cons hid hids⟩

/-- Different variables have different nodes. -/
theorem Shows.nodup_iff (h : Shows ctx vars s v) {names : List String} {ids : List NodeId}
    (hids : List.Forall₂ (fun name id => vars.lookup name = some id) names ids) :
    names.Nodup ↔ ids.Nodup := by
  induction hids with
  | nil => exact iff_of_true List.nodup_nil List.nodup_nil
  | @cons name id names ids hid hids ih =>
    rw [List.nodup_cons, List.nodup_cons, ih]
    refine and_congr_left fun _ => not_congr ⟨fun hmem => ?_, fun hmem => ?_⟩
    · obtain ⟨other, hother, hsame⟩ := exists_of_mem_left hids hmem
      rw [hid] at hsame
      exact Option.some.inj hsame ▸ hother
    · obtain ⟨other, hother, hsame⟩ := exists_of_mem_right hids hmem
      have heq : (name, id) = (other, id) := List.inj_on_of_nodup_map h.distinct
        (mem_of_lookup_eq_some hid) (mem_of_lookup_eq_some hsame) rfl
      cases heq
      exact hother

end Names

end Flow

end YulTaint
