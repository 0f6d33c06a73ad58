import Mathlib.Tactic
import YulTaint.Proofs.CallGraph.Places
import YulTaint.Proofs.Execution.Control
import YulTaint.Proofs.Execution.Monitor
import YulTaint.Proofs.Execution.Scoping
import YulTaint.Proofs.Memory.Aliasing
import YulTaint.Proofs.Taint.Closure

/-!
Monitored builtins against the flow graph. For every way of calls from an entry
there is a set of nodes that taint reaches, closed under the edges that stand at
the end of the way. While a function runs, a tainted value is held by a node of
this set, a tainted byte lies in a memory word of it, and words are the constants
that the graph claims. Applying a builtin keeps this.
-/

namespace YulTaint.Execution

open YulTaint.Flow

open YulTaint.Memory (Range loadNames storeNames)

open YulTaint.Taint (CanTaint)

section Sat

variable {α β : Type} {I : Machine → Prop}

/-- However a run ends, it keeps an invariant of the machine; and its result has
a property. -/
def Sat (I : Machine → Prop) (x : Run α) (P : α → Prop) : Prop :=
  ∀ m, I m → match x m with
    | .ok a m' => I m' ∧ P a
    | .error _ m' => I m'

theorem sat_pure {P : α → Prop} {a : α} (h : P a) : Sat I (pure a) P :=
  fun _ hm => ⟨hm, h⟩

theorem sat_throw (e : Stop) (P : α → Prop) : Sat I (throw e) P :=
  fun _ hm => hm

theorem Sat.bind {x : Run α} {f : α → Run β} {P : α → Prop} {Q : β → Prop} (hx : Sat I x P)
    (hf : ∀ a, P a → Sat I (f a) Q) : Sat I (x >>= f) Q := by
  intro m hm
  have hfirst := hx m hm
  change match EStateM.bind x f m with
    | .ok a m' => I m' ∧ Q a
    | .error _ m' => I m'
  unfold EStateM.bind
  cases hrun : x m with
  | ok a m' =>
    rw [hrun] at hfirst
    exact hf a hfirst.2 m' hfirst.1
  | error e m' =>
    rw [hrun] at hfirst
    exact hfirst

theorem Sat.imp {x : Run α} {P Q : α → Prop} (hx : Sat I x P) (h : ∀ a, P a → Q a) : Sat I x Q := by
  intro m hm
  have hfirst := hx m hm
  cases hrun : x m with
  | ok a m' =>
    rw [hrun] at hfirst
    exact ⟨hfirst.1, h a hfirst.2⟩
  | error e m' =>
    rw [hrun] at hfirst
    exact hfirst

end Sat

/-- Sets of nodes that taint reaches, one for each way of calls from an entry:
each is closed under the edges of the scope that the way leads to and under the
wires of calls, and all agree on memory words. -/
structure Spreads (g : Graph) (entry : String) (sources : Bool)
    (T : List SiteRef → NodeId → Prop) : Prop where
  edges : ∀ {path chain last s}, g.CallPath entry path chain last → g.scope? last = some s →
    ∀ e ∈ s.edges, CanTaint g e.target → T path e.source → T path e.target
  sources : sources = true → ∀ {path chain last}, g.CallPath entry path chain last →
    ∀ id n, g.Owns last id → g.node? id = some n → n.isSource = true → CanTaint g id → T path id
  words : ∀ {path chain last}, g.CallPath entry path chain last →
    ∀ word, g.IsShared word → (T path word ↔ T [] word)
  calls : ∀ {path chain last i site f}, g.CallPath entry path chain last →
    g.site? ⟨last, i⟩ = some site → g.scope? site.callee = some f → CanTaint g f.root →
    T path site.block → T (path ++ [⟨last, i⟩]) f.root
  arguments : ∀ {path chain last i site f}, g.CallPath entry path chain last →
    g.site? ⟨last, i⟩ = some site → g.scope? site.callee = some f →
    ∀ arg param, (arg, param) ∈ site.arguments.zip f.params → CanTaint g param →
    T path arg → T (path ++ [⟨last, i⟩]) param
  results : ∀ {path chain last i site f}, g.CallPath entry path chain last →
    g.site? ⟨last, i⟩ = some site → g.scope? site.callee = some f →
    ∀ ret result, (ret, result) ∈ f.returns.zip site.results → CanTaint g result →
    T (path ++ [⟨last, i⟩]) ret → T path result

/-- A graph that fits the program of a setting. -/
structure Setting.Fits (σ : Setting) : Prop where
  coherent : σ.graph.Coherent
  guarded : σ.graph.Guarded
  laid : ∀ f ∈ σ.program, Laid σ.graph f
  scopes : ∀ name ∈ σ.graph.scopeNames, ∃ f ∈ σ.program, f.scope = name
  reads : ∀ f ∈ σ.program, f.body.Reads f.Knows
  unbound : ∃ f ∈ σ.program, f.root = 0
  exempts : σ.exempts = true

section Fits

variable {σ : Setting} {id : NodeId}

/-- An untaintable node is a variable of some scope, and has a constant. -/
theorem Setting.Fits.exists_constant (hσ : σ.Fits) {n : FlowNode} (hn : σ.graph.node? id = some n)
    (huntaintable : n.isUntaintable = true) :
    ∃ sc value, n.scope = some sc ∧ n.constant = some value ∧
      constantOf σ.graph id = some value := by
  obtain ⟨hprotected, hsome⟩ := (hσ.guarded id n hn).untaintable huntaintable
  obtain ⟨sc, hsc⟩ := Option.ne_none_iff_exists'.mp ((hσ.guarded id n hn).address hprotected)
  obtain ⟨value, hvalue⟩ := Option.isSome_iff_exists.mp hsome
  exact ⟨sc, value, hsc, hvalue, by rw [constantOf, hn, Option.bind_some, hvalue]⟩

/-- Taint is never kept out of a block. -/
theorem Setting.Fits.canTaint_of_isBlock (hσ : σ.Fits) (h : IsBlock σ.graph id) :
    CanTaint σ.graph id := by
  have ⟨n, hn, _⟩ := h
  refine ⟨n, hn, Bool.eq_false_iff.mpr fun huntaintable => ?_⟩
  obtain ⟨sc, value, hsc, _, hconstant⟩ := hσ.exists_constant hn huntaintable
  obtain ⟨f, hf, rfl⟩ := hσ.scopes sc (hσ.coherent.owned id n sc hn hsc)
  obtain ⟨s, hs, _⟩ := (hσ.laid f hf).scope
  have hown : σ.graph.Owns f.scope id :=
    ⟨s, hs, ((hσ.coherent.scopes _ s hs).owns id).mpr ⟨n, hn, Graph.name_of_scope? hs ▸ hsc⟩⟩
  exact h.not_ownsVariable _ ((hσ.laid f hf).ownsVariable_of_constant hown hconstant)

/-- The node of unbound names has no constant. -/
theorem Setting.Fits.constantOf_unbound (hσ : σ.Fits) :
    IsBlock σ.graph 0 ∧ constantOf σ.graph 0 = none := by
  obtain ⟨f, hf, hzero⟩ := hσ.unbound
  have hlaid := hσ.laid f hf
  obtain ⟨s, hs, hroot, _⟩ := hlaid.scope
  have hown : σ.graph.Owns f.scope 0 := ⟨s, hs, hzero ▸ hroot ▸ (hσ.coherent.scopes _ s hs).root⟩
  have hblock : IsBlock σ.graph 0 := hzero ▸ hlaid.blocks f.root List.mem_cons_self
  refine ⟨hblock, Option.eq_none_iff_forall_ne_some.mpr fun value hvalue => ?_⟩
  exact hblock.not_ownsVariable _ (hlaid.ownsVariable_of_constant hown hvalue)

end Fits

/-- A call under way: the function that runs, and the calls that led to it from
an entry. -/
structure Activation (g : Graph) (entry : String) where
  function : Function
  path : List SiteRef
  chain : List String
  laid : Laid g function
  calls : g.CallPath entry path chain function.scope

namespace Activation

variable {g : Graph} {entry : String}

/-- A word that a node may hold, for all that the graph claims. -/
structure Allows (A : Activation g entry) (id : NodeId) (word : Int) : Prop where
  known : ((Constant.solve A.function.layout.definitions).get id).Allows word
  constant : ∀ value, constantOf g id = some value → word = value

structure Holds (A : Activation g entry) (T : List SiteRef → NodeId → Prop) (id : NodeId)
    (v : Value) : Prop where
  taint : v.tainted = true → T A.path id ∧ g.OwnsVariable A.function.scope id
  word : A.Allows id v.word

variable {A : Activation g entry} {T : List SiteRef → NodeId → Prop} {id : NodeId} {v : Value}

/-- What a definition gives is allowed. -/
theorem allows_of_mem {d : Definition} (hd : d ∈ A.function.layout.definitions) {word : Int}
    (h : (Constant.transfer (Constant.solve A.function.layout.definitions) d).Allows word) :
    A.Allows d.target word := by
  have hknown := Constant.solve_allows hd h
  refine ⟨hknown, fun value hvalue => hknown.value_eq ?_⟩
  rw [A.laid.constants _ _ (A.laid.defined d hd).owns hvalue]
  rfl

theorem draws {sources : Bool} (hT : Spreads g entry sources T) {a b : NodeId}
    (h : g.Draws A.function.scope a b) (hcan : CanTaint g b) (ha : T A.path a) : T A.path b := by
  obtain ⟨s, hs, _⟩ := A.laid.scope
  exact hT.edges A.calls hs _ (h.2 s hs) hcan ha

theorem edge {sources : Bool} (hT : Spreads g entry sources T) {l : Layout}
    (hl : Part l A.function.layout) {a b : NodeId} (he : ⟨a, b⟩ ∈ l.edges) (hcan : CanTaint g b)
    (ha : T A.path a) : T A.path b := by
  obtain ⟨s, hs, _, _, _, _, _, hedges⟩ := A.laid.scope
  exact hT.edges A.calls hs _ (hedges (hl.edges he)) hcan ha

end Activation

section Hold

variable {σ : Setting} {entry : String} {A : Activation σ.graph entry}
  {T : List SiteRef → NodeId → Prop} {id : NodeId} {v : Value}

@[simp]
theorem hold_word (σ : Setting) (id : NodeId) (v : Value) : (σ.hold id v).word = v.word := by
  unfold Setting.hold
  split <;> rfl

theorem Setting.Fits.allows_unbound (hσ : σ.Fits) (A : Activation σ.graph entry) (word : Int) :
    A.Allows 0 word := by
  obtain ⟨hblock, hnone⟩ := hσ.constantOf_unbound
  refine ⟨?_, fun value hvalue => ?_⟩
  · rw [Constant.Assignment.get_eq_varying]
    · exact Knowledge.allows_varying word
    · intro hkey
      rw [(Constant.solve_spec _).1, (eraseDups_spec _).2.1] at hkey
      obtain ⟨d, hd, hzero⟩ := List.mem_map.mp hkey
      exact hblock.not_ownsVariable _ (hzero ▸ A.laid.defined d hd)
  · rw [hnone] at hvalue
    cases hvalue

/-- A tainted value stays tainted in a node that taint can enter only. -/
theorem Setting.Fits.tainted_of_hold (hσ : σ.Fits) (hid : σ.graph.OwnsVariable A.function.scope id)
    (hword : A.Allows id v.word) (h : (σ.hold id v).tainted = true) :
    v.tainted = true ∧ CanTaint σ.graph id := by
  obtain ⟨_, n, hn, _⟩ := hid
  unfold Setting.hold at h
  split at h
  · cases h
  · rename_i hfixed
    refine ⟨h, n, hn, Bool.eq_false_iff.mpr fun huntaintable => hfixed ?_⟩
    obtain ⟨_, value, _, hvalue, hconstant⟩ := hσ.exists_constant hn huntaintable
    simp [hσ.exempts, Setting.isFixed, hn, huntaintable, hvalue, hword.constant value hconstant]

theorem Setting.Fits.holds_hold (hσ : σ.Fits) (hid : σ.graph.OwnsVariable A.function.scope id)
    (hword : A.Allows id v.word)
    (htaint : v.tainted = true → CanTaint σ.graph id → T A.path id) :
    A.Holds T id (σ.hold id v) := by
  refine ⟨fun h => ?_, by rwa [hold_word]⟩
  obtain ⟨htainted, hcan⟩ := hσ.tainted_of_hold hid hword h
  exact ⟨htaint htainted hcan, hid⟩

end Hold

/-- A builtin that writes nothing to memory, or else what comes from outside and
counts as a source. -/
def isPlainBuiltin (sources : Bool) (name : String) : Bool :=
  (Builtin.lookup? name).all fun b => b.writes.isEmpty || sources && b.kind = .source

mutual

/-- An expression that calls no function and applies plain builtins only. -/
def Term.isPlain (sources : Bool) : Term → Bool
  | .literal _ _ | .read _ => true
  | .apply _ name args => isPlainBuiltin sources name && Term.arePlain sources args
  | .call _ _ _ _ => false

def Term.arePlain (sources : Bool) : List Term → Bool
  | [] => true
  | t :: rest => t.isPlain sources && Term.arePlain sources rest

end

/-- A builtin that has a value and writes to memory takes it from outside. -/
theorem source_of_writes : ∀ b ∈ Builtin.table, b.returns = 1 →
    b.writes = [] ∨ b.kind = .source := by
  decide

def Layout.WritesNothing (l : Layout) : Prop :=
  ∀ a ∈ l.applications, ∀ b, Builtin.lookup? a.name = some b → b.writes = []

theorem isPlainBuiltin_of_value {sources : Bool} {name : String}
    (hvalue : ∀ b, Builtin.lookup? name = some b → b.returns = 1)
    (hwrites : sources = true ∨ ∀ b, Builtin.lookup? name = some b → b.writes = []) :
    isPlainBuiltin sources name = true := by
  unfold isPlainBuiltin
  cases hb : Builtin.lookup? name with
  | none => rfl
  | some b =>
    rcases hwrites with hsources | hwrites
    · rcases source_of_writes b (Builtin.mem_table hb) (hvalue b hb) with h | h
      · simp [h]
      · simp [h, hsources]
    · simp [hwrites b hb]

mutual

theorem Term.isPlain_of_value (t : Term) {p : Region} {sources : Bool} (hvalue : t.IsValue)
    (hcalls : (t.layout p).sites = [])
    (hwrites : sources = true ∨ (t.layout p).WritesNothing) : t.isPlain sources = true := by
  cases t with
  | literal node value => rfl
  | read id => rfl
  | apply node name args =>
    obtain ⟨hargs, _⟩ := List.append_eq_nil_iff.mp (List.append_eq_nil_iff.mp hcalls).1
    rw [Term.isPlain, Bool.and_eq_true]
    constructor
    · exact isPlainBuiltin_of_value hvalue.1 (hwrites.imp_right fun h =>
        h _ (List.mem_append_right _ List.mem_cons_self))
    · exact Term.arePlain_of_value args hvalue.2 hargs (hwrites.imp_right fun h a ha =>
        h a (List.mem_append_left _ (List.mem_append_left _ ha)))
  | call node function args loc =>
    obtain ⟨_, hsite⟩ := List.append_eq_nil_iff.mp hcalls
    cases hsite

theorem Term.arePlain_of_value (ts : List Term) {p : Region} {sources : Bool}
    (hvalue : Term.AreValues ts) (hcalls : (Term.layouts p ts).sites = [])
    (hwrites : sources = true ∨ (Term.layouts p ts).WritesNothing) :
    Term.arePlain sources ts = true := by
  cases ts with
  | nil => rfl
  | cons t rest =>
    obtain ⟨hfirst, hrest⟩ := List.append_eq_nil_iff.mp hcalls
    rw [Term.arePlain, Bool.and_eq_true]
    exact ⟨t.isPlain_of_value hvalue.1 hfirst
        (hwrites.imp_right fun h a ha => h a (List.mem_append_left _ ha)),
      Term.arePlain_of_value rest hvalue.2 hrest
        (hwrites.imp_right fun h a ha => h a (List.mem_append_right _ ha))⟩

end

/-- A byte that a store to tainted words may have reached. -/
def IsStained (g : Graph) (T : List SiteRef → NodeId → Prop) (b : Int) : Prop :=
  ∃ r : Range, r.MayHold b ∧ ∀ name ∈ storeNames r.offset r.width,
    ∃ word, g.globals.lookup name = some word ∧ T [] word

/-- A storage access through a node that taint reaches. -/
def Event.IsFound (g : Graph) (entry : String) (T : List SiteRef → NodeId → Prop) (e : Event) :
    Prop :=
  ∃ path last n, g.CallPath entry path e.chain last ∧ T path e.node ∧
    g.OwnsVariable last e.node ∧ g.node? e.node = some n ∧ n.isProtected = true

structure Machine.Tracked (g : Graph) (entry : String) (T : List SiteRef → NodeId → Prop)
    (m : Machine) : Prop where
  memory : ∀ b, (m.memory b).tainted = true → IsStained g T b
  events : ∀ e ∈ m.events, e.IsFound g entry T

/-- A load from a stained byte reads a tainted word. -/
theorem IsStained.exists_word {g : Graph} {T : List SiteRef → NodeId → Prop} {b : Int}
    (h : IsStained g T b) {r : Range} (hr : r.MayHold b) :
    ∃ name ∈ loadNames r.offset r.width, ∃ word, g.globals.lookup name = some word ∧ T [] word := by
  obtain ⟨stored, hstored, hwords⟩ := h
  obtain ⟨name, hstore, hload⟩ :=
    (Memory.exists_common_name_iff hstored.isProper hr.isProper).mpr
      (Memory.mayOverlap_of_mayHold hstored hr)
  exact ⟨name, hload, hwords name hstore⟩

theorem allConstant?_eq_none {operands : List (Option Int)} (h : none ∈ operands) :
    allConstant? operands = none := by
  unfold allConstant?
  induction operands with
  | nil => cases h
  | cons first rest ih =>
    rcases List.mem_cons.mp h with rfl | hrest
    · rfl
    · cases first with
      | none => rfl
      | some value => simp [ih hrest]

def Call.application (a : Call) (block : NodeId) : Application :=
  { node := a.node, name := a.name, operands := a.ids, block }

/-- An application as it happens while a function runs: the function has it, its
operands hold what they may, and if the control path is tainted then so is the
block around, unless the application is plain. -/
structure Call.Placed {g : Graph} {entry : String} (a : Call) (A : Activation g entry)
    (T : List SiteRef → NodeId → Prop) (sources : Bool) (block : NodeId) : Prop where
  application : a.application block ∈ A.function.layout.applications
  definition : .application a.node a.name a.ids ∈ A.function.layout.definitions
  operands : List.Forall₂ (A.Holds T) a.ids a.values
  control : a.pc = true → T A.path block ∨ isPlainBuiltin sources a.name = true

section Operands

variable {g : Graph} {entry : String} {A : Activation g entry} {T : List SiteRef → NodeId → Prop}
  {ids : List NodeId} {values : List Value}

theorem holds_getD (h : List.Forall₂ (A.Holds T) ids values) {i : Nat}
    (ht : (values.getD i {}).tainted = true) :
    T A.path (ids.getD i 0) ∧ g.OwnsVariable A.function.scope (ids.getD i 0) := by
  induction h generalizing i with
  | nil => cases ht
  | cons hfirst _ ih =>
    cases i with
    | zero => exact hfirst.taint ht
    | succ i => exact ih ht

/-- The constants that the graph claims for operands are their words. -/
theorem word_of_constant (h : List.Forall₂ (A.Holds T) ids values) {i : Nat} {value : Int}
    (hvalue : ((ids.map (constantOf g))[i]?).join = some value) :
    (values.map (·.word)).getD i 0 = value := by
  induction h generalizing i with
  | nil => cases hvalue
  | cons hfirst _ ih =>
    cases i with
    | zero => exact hfirst.word.constant value hvalue
    | succ i => exact ih hvalue

/-- Operands whose constants are all known hold just these. -/
theorem constants_eq_words (h : List.Forall₂ (A.Holds T) ids values)
    (hall : none ∉ ids.map (constantOf g)) :
    ids.map (constantOf g) = (values.map (·.word)).map some := by
  induction h with
  | nil => rfl
  | @cons id v _ _ hfirst _ ih =>
    simp only [List.map_cons, List.mem_cons, not_or] at hall ⊢
    obtain ⟨value, hvalue⟩ := Option.ne_none_iff_exists'.mp (Ne.symm hall.1)
    rw [hvalue, hfirst.word.constant value hvalue, ih hall.2]

/-- The bytes that an access touches are those that its range may hold. -/
theorem mayHold_access (h : List.Forall₂ (A.Holds T) ids values) (access : MemoryAccess) {b : Int}
    (hstart : startOf (values.map (·.word)) access ≤ b)
    (hend : b < startOf (values.map (·.word)) access +
      lengthOf (values.map (·.word)) access.extent) :
    Range.MayHold ⟨accessOffset (ids.map (constantOf g)) access,
      accessWidth (ids.map (constantOf g)) access.extent⟩ b := by
  refine ⟨_, _, fun value hvalue => (word_of_constant h hvalue).symm, ?_, hstart, hend⟩
  intro value hvalue
  cases hextent : access.extent with
  | bytes width =>
    simp only [hextent, accessWidth] at hvalue
    exact (Option.some.inj hvalue).symm
  | operand index =>
    simp only [hextent, accessWidth] at hvalue
    exact (word_of_constant h hvalue).symm

end Operands

namespace Call

/-- A value from outside is never computed, and what such a builtin writes to
memory is no operand. -/
theorem source_spec : ∀ b ∈ Builtin.table, b.kind = .source →
    b.fold? = none ∧ ∀ access ∈ b.writes, access.value? = none := by
  decide

section Placed

variable {σ : Setting} {entry : String} {A : Activation σ.graph entry}
  {T : List SiteRef → NodeId → Prop} {a : Call} {block : NodeId} {m : Machine}

/-- A word is allowed for the value of an application as soon as it is the
computed one, if there is one. -/
theorem Placed.allows (h : a.Placed A T σ.sources block) {word : Int}
    (hword : ∀ c, (Builtin.effectFor a.name (a.words.map some)).constant = some c → word = c) :
    A.Allows a.node word := by
  refine Activation.allows_of_mem h.definition (Constant.applied_allows ?_ hword)
  rw [words, List.forall₂_map_left_iff, List.forall₂_map_right_iff]
  exact h.operands.imp fun _ _ hv => hv.word.known

theorem Placed.allows_word (h : a.Placed A T σ.sources block) : A.Allows a.node (a.word σ m) := by
  refine h.allows fun c hc => ?_
  rw [word, hc]

/-- If operands reach the value, then so do their edges. -/
theorem Placed.taints_of_mixes (hσ : σ.Fits) (h : a.Placed A T σ.sources block)
    (hmixes : a.mixes σ = true) : (a.effect σ).taints = true := by
  simp only [mixes, hσ.exempts, Bool.true_and, Bool.and_eq_true, Bool.not_eq_true'] at hmixes
  obtain ⟨hpropagates, hvaries⟩ := hmixes
  unfold effect Builtin.effectFor
  unfold propagates at hpropagates
  cases hb : Builtin.lookup? a.name with
  | none => rfl
  | some b =>
    rw [Builtin.isBuiltin, hb, Option.isSome_some, Bool.true_and] at hvaries
    have hnone : none ∈ a.ids.map (constantOf σ.graph) := by
      by_contra hall
      rw [isConstant, constants_eq_words h.operands hall] at hvaries
      simp [words] at hvaries
    rw [hb] at hpropagates
    simpa [Builtin.effectWith, allConstant?_eq_none hnone] using hpropagates

variable (hσ : σ.Fits) (hT : Spreads σ.graph entry σ.sources T)

include hT

theorem Placed.source (h : a.Placed A T σ.sources block) (hsources : σ.sources = true)
    (hsource : (a.effect σ).source = true) (hcan : CanTaint σ.graph a.node) :
    T A.path a.node := by
  obtain ⟨n, hn, hmark⟩ := (A.laid.applied _ h.application).source hsource
  exact hT.sources hsources A.calls a.node n (A.laid.defined _ h.definition).owns hn hmark hcan

include hσ

/-- Taint reaches the node of a tainted value. -/
theorem Placed.taint (h : a.Placed A T σ.sources block) (hm : m.Tracked σ.graph entry T)
    (htainted : a.isTainted σ m = true) (hcan : CanTaint σ.graph a.node) : T A.path a.node := by
  have happlied := A.laid.applied _ h.application
  simp only [isTainted, Bool.or_eq_true, Bool.and_eq_true, List.any_eq_true] at htainted
  rcases htainted with (⟨hmixes, v, hv, htaint⟩ | ⟨hsource, hsources⟩) | ⟨access, haccess, hread⟩
  · obtain ⟨id, hid, hholds⟩ := exists_of_mem_right h.operands hv
    exact A.draws hT (happlied.operands (h.taints_of_mixes hσ hmixes) id hid) hcan
      (hholds.taint htaint).1
  · exact h.source hT hsources hsource hcan
  · simp only [Machine.isTainted, List.any_eq_true, List.mem_range] at hread
    obtain ⟨i, hi, hbyte⟩ := hread
    have hhold := mayHold_access h.operands access (b := startOf a.words access + i)
      (by unfold words; omega) (by unfold words at *; omega)
    obtain ⟨name, hname, word, hlookup, hword⟩ := (hm.memory _ hbyte).exists_word hhold
    obtain ⟨word', hlookup', hdraws⟩ := happlied.reads access haccess name hname
    cases hlookup.symm.trans hlookup'
    obtain ⟨n, hn, hnone, _⟩ := hσ.coherent.globals name word (mem_of_lookup_eq_some hlookup)
    exact A.draws hT hdraws hcan ((hT.words A.calls word ⟨n, hn, hnone⟩).mpr hword)

theorem Placed.holds_value (h : a.Placed A T σ.sources block) (hm : m.Tracked σ.graph entry T) :
    A.Holds T a.node (a.value σ m) :=
  hσ.holds_hold (A.laid.defined _ h.definition) h.allows_word (h.taint hσ hT hm)

/-- Taint reaches the node of a plain application that writes to memory. -/
theorem Placed.plain (h : a.Placed A T σ.sources block)
    (hplain : isPlainBuiltin σ.sources a.name = true) {access : MemoryAccess}
    (haccess : access ∈ (a.effect σ).writes) :
    T A.path a.node ∧ access.value? = none := by
  unfold effect Builtin.effectFor at haccess
  unfold isPlainBuiltin at hplain
  cases hb : Builtin.lookup? a.name with
  | none =>
    rw [hb] at haccess
    cases haccess
  | some b =>
    rw [hb] at haccess hplain
    have hne : b.writes.isEmpty = false := by
      cases hwrites : b.writes with
      | nil => simp [Builtin.effectWith, hwrites] at haccess
      | cons _ _ => rfl
    simp only [Option.all_some, hne, Bool.false_or, Bool.and_eq_true, decide_eq_true_eq] at hplain
    obtain ⟨hsources, hkind⟩ := hplain
    obtain ⟨hfold, hvalue⟩ := source_spec b (Builtin.mem_table hb) hkind
    -- the value is not computed, so all words are allowed for it
    have hall (word : Int) : A.Allows a.node word := by
      refine h.allows fun c hc => ?_
      simp [Builtin.effectFor, hb, Builtin.effectWith, Builtin.folded, hfold] at hc
      cases hc
    have hcan : CanTaint σ.graph a.node := by
      obtain ⟨_, n, hn, _⟩ := A.laid.defined _ h.definition
      refine ⟨n, hn, Bool.eq_false_iff.mpr fun huntaintable => ?_⟩
      obtain ⟨_, c, _, _, hconstant⟩ := hσ.exists_constant hn huntaintable
      have hzero := (hall 0).constant c hconstant
      have hone := (hall 1).constant c hconstant
      omega
    refine ⟨h.source hT hsources ?_ hcan, hvalue access haccess⟩
    simp [effect, Builtin.effectFor, hb, Builtin.effectWith, hkind]

/-- A tainted write goes to words that taint reaches. -/
theorem Placed.isStained (h : a.Placed A T σ.sources block) (hm : m.Tracked σ.graph entry T)
    {access : MemoryAccess} (haccess : access ∈ (a.effect σ).writes)
    (htainted : a.writeTaint σ m access = true) {b : Int}
    (hstart : startOf a.words access ≤ b)
    (hend : b < startOf a.words access + lengthOf a.words access.extent) :
    IsStained σ.graph T b := by
  refine ⟨_, mayHold_access h.operands access hstart hend, fun name hname => ?_⟩
  obtain ⟨word, hlookup, hwritten⟩ :=
    (A.laid.applied _ h.application).writes access haccess name hname
  obtain ⟨n, hn, hnone, _⟩ := hσ.coherent.globals name word (mem_of_lookup_eq_some hlookup)
  have hcan : CanTaint σ.graph word := by
    refine ⟨n, hn, Bool.eq_false_iff.mpr fun huntaintable => ?_⟩
    obtain ⟨_, _, hsc, _⟩ := hσ.exists_constant hn huntaintable
    rw [hnone] at hsc
    cases hsc
  refine ⟨word, hlookup, (hT.words A.calls word ⟨n, hn, hnone⟩).mp ?_⟩
  simp only [writeTaint, Bool.or_eq_true] at htainted
  rcases htainted with (hvalue | hoffset) | hpc
  · refine A.draws hT hwritten.value hcan ?_
    unfold storedNode
    cases haccess : access.value? with
    | none =>
      rw [haccess] at hvalue
      exact ((h.holds_value hσ hT hm).taint hvalue).1
    | some k =>
      rw [haccess] at hvalue
      exact (holds_getD h.operands hvalue).1
  · exact A.draws hT hwritten.offset hcan (holds_getD h.operands hoffset).1
  · rcases h.control hpc with hblock | hplain
    · exact A.draws hT (hwritten.block block rfl) hcan hblock
    · obtain ⟨hnode, hnovalue⟩ := h.plain hσ hT hplain haccess
      refine A.draws hT hwritten.value hcan ?_
      unfold storedNode
      rw [hnovalue]
      exact hnode

/-- An application leaves a tracked machine. -/
theorem Placed.tracked_next (h : a.Placed A T σ.sources block) (hm : m.Tracked σ.graph entry T) :
    (a.next σ A.chain m).Tracked σ.graph entry T := by
  constructor
  · suffices ∀ (accesses : List MemoryAccess) (memory : Int → Value),
        (∀ access ∈ accesses, access ∈ (a.effect σ).writes) →
        (∀ b, (memory b).tainted = true → IsStained σ.graph T b) →
        ∀ b, (accesses.foldl (a.write σ m) memory b).tainted = true → IsStained σ.graph T b from
      this _ _ (fun _ haccess => haccess) hm.memory
    intro accesses
    induction accesses with
    | nil => exact fun _ _ hmemory => hmemory
    | cons access rest ih =>
      intro memory haccesses hmemory
      refine ih _ (fun x hx => haccesses x (List.mem_cons_of_mem _ hx)) fun b htainted => ?_
      simp only [write] at htainted
      split at htainted
      · rename_i hrange
        exact h.isStained hσ hT hm (haccesses access List.mem_cons_self) htainted hrange.1
          hrange.2
      · exact hmemory b htainted
  · intro e he
    rcases List.mem_append.mp he with he | he
    · exact hm.events e he
    · simp only [events, List.mem_map, List.mem_filter] at he
      obtain ⟨i, ⟨hi, htaint⟩, rfl⟩ := he
      obtain ⟨hreach, hown⟩ := holds_getD h.operands htaint
      obtain ⟨n, hn, hprotected⟩ := (A.laid.applied _ h.application).addresses i hi
      exact ⟨A.path, _, n, A.calls, hreach, hown, hn, hprotected⟩

/-- Applying a builtin keeps track. -/
theorem Placed.sat (h : a.Placed A T σ.sources block) :
    Sat (Machine.Tracked σ.graph entry T) (a.run σ A.chain) (A.Holds T a.node) := by
  intro m hm
  have hnext := h.tracked_next hσ hT hm
  cases hhalts : haltingBuiltins.contains a.name with
  | true =>
    have hrun : a.run σ A.chain m = .error .halted (a.next σ A.chain m) := if_pos hhalts
    rw [hrun]
    exact hnext
  | false =>
    have hrun : a.run σ A.chain m = .ok (a.value σ m) (a.next σ A.chain m) :=
      if_neg (Bool.eq_false_iff.mp hhalts)
    rw [hrun]
    exact ⟨hnext, h.holds_value hσ hT hm⟩

end Placed

end Call

end YulTaint.Execution
