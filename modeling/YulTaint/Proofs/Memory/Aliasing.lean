import Mathlib.Tactic
import YulTaint.Proofs.Flow.Finished
import YulTaint.Proofs.Memory.Words

/-!
Aliasing in memory is exact at the granularity of words. In any run of memory
operations a store and a load share a node exactly if neither range is empty
and the two may touch a common word, in whichever order they come; and through
each node that they share the loaded value depends on what was stored.
-/

namespace YulTaint.Memory

variable {r : Range} {byte : Int} {g : Graph}

/-- A range of memory whose offset and width may be unknown. -/
structure Range where
  offset : Option Int
  width : Option Int

namespace Range

def IsEmpty (r : Range) : Prop :=
  r.offset.isSome ∧ r.width = some 0

def Reaches (r : Range) (word : Int) : Prop :=
  ∃ offset width, r = ⟨some offset, some width⟩ ∧
    offset / 32 ≤ word ∧ word ≤ (offset + width - 1) / 32

/-- A range whose bounds are not both known, or which is too long. -/
def IsUnknown (r : Range) : Prop :=
  r.offset = none ∨ r.width = none ∨ ∃ offset width, r = ⟨some offset, some width⟩ ∧
    width ≠ 0 ∧ 64 < (offset + width - 1) / 32 - offset / 32 + 1

/-- A byte that a range holds when what is unknown of it takes some value. -/
def MayHold (r : Range) (byte : Int) : Prop :=
  ∃ offset width, (∀ c, r.offset = some c → c = offset) ∧ (∀ c, r.width = some c → c = width) ∧
    offset ≤ byte ∧ byte < offset + width

def IsProper (r : Range) : Prop :=
  ∀ width, r.width = some width → 0 ≤ width

end Range

def MayOverlap (a b : Range) : Prop :=
  ¬ a.IsEmpty ∧ ¬ b.IsEmpty ∧
    (a.IsUnknown ∨ b.IsUnknown ∨ ∃ word, a.Reaches word ∧ b.Reaches word)

structure Store where
  scope : String
  offsetVar : NodeId
  range : Range
  valueVar : NodeId
  block : Option NodeId

structure Load where
  scope : String
  offsetVar : NodeId
  range : Range
  resultVar : NodeId

inductive Operation where
  | resolve (range : Range)
  | store (access : Store)
  | load (access : Load)

def Operation.run (g : Graph) : Operation → List NodeId × Graph
  | .resolve r => Memory.resolve g r.offset r.width
  | .store a =>
    Memory.store g a.scope a.offsetVar a.range.offset a.range.width a.valueVar a.block
  | .load a => Memory.load g a.scope a.offsetVar a.range.offset a.range.width a.resultVar

def runAll (g : Graph) : List Operation → List (List NodeId) × Graph
  | [] => ([], g)
  | op :: rest =>
    let (ids, g) := op.run g
    let (others, g) := runAll g rest
    (ids :: others, g)

/-- A range is empty, unknown, or made of the words that it reaches into. -/
theorem Range.cover_cases (hr : r.IsProper) :
    (r.IsEmpty ∧ coverNames (cover r.offset r.width) = [] ∧ loadNames r.offset r.width = []) ∨
    (r.IsUnknown ∧ ¬ r.IsEmpty ∧ cover r.offset r.width = .unknown) ∨
    ∃ first count, ¬ r.IsUnknown ∧ ¬ r.IsEmpty ∧ cover r.offset r.width = .words first count ∧
      0 < count ∧ ∀ i, r.Reaches i ↔ first ≤ i ∧ i < first + count := by
  obtain ⟨offset, width⟩ := r
  match offset, width with
  | none, _ => exact Or.inr (Or.inl ⟨Or.inl rfl, by rintro ⟨⟨⟩, _⟩, rfl⟩)
  | some offset, none => exact Or.inr (Or.inl ⟨Or.inr (Or.inl rfl), by rintro ⟨_, ⟨⟩⟩, rfl⟩)
  | some offset, some width =>
    have hwidth : 0 ≤ width := hr width rfl
    have hfirst : offset.fdiv wordSize = offset / 32 :=
      Int.fdiv_eq_ediv_of_nonneg _ (by decide)
    have hlast : (offset + width - 1).fdiv wordSize = (offset + width - 1) / 32 :=
      Int.fdiv_eq_ediv_of_nonneg _ (by decide)
    have hcover : cover (some offset) (some width) =
        if width = 0 then .words 0 0
        else if 64 < (offset + width - 1) / 32 - offset / 32 + 1 then .unknown
        else .words (offset / 32) ((offset + width - 1) / 32 - offset / 32 + 1).toNat := by
      simp only [cover, hfirst, hlast, maxTrackedWords]
    by_cases hzero : width = 0
    · rw [if_pos hzero] at hcover
      refine Or.inl ⟨⟨rfl, congrArg some hzero⟩, ?_, ?_⟩
      · rw [hcover]
        rfl
      · simp only [loadNames, hcover]
        rfl
    · rw [if_neg hzero] at hcover
      have hnonempty : ¬ Range.IsEmpty ⟨some offset, some width⟩ :=
        fun h => hzero (Option.some.inj h.2)
      by_cases hlong : 64 < (offset + width - 1) / 32 - offset / 32 + 1
      · rw [if_pos hlong] at hcover
        exact Or.inr (Or.inl ⟨Or.inr (Or.inr ⟨offset, width, rfl, hzero, hlong⟩),
          hnonempty, hcover⟩)
      · rw [if_neg hlong] at hcover
        refine Or.inr (Or.inr ⟨_, _, ?_, hnonempty, hcover, by omega, ?_⟩)
        · rintro (h | h | ⟨o, w, h, _, hlong'⟩)
          · cases h
          · cases h
          · cases h
            exact hlong hlong'
        · intro i
          constructor
          · rintro ⟨o, w, h, hle, hge⟩
            cases h
            omega
          · rintro ⟨hle, hlt⟩
            exact ⟨offset, width, rfl, by omega, by omega⟩

theorem loadNames_words {offset width : Option Int} {first : Int} {count : Nat}
    (h : cover offset width = .words first count) (hcount : 0 < count) :
    loadNames offset width = wordNames first count ++ [unknownRegion] := by
  simp only [loadNames, h]
  split
  · rename_i hnil
    simp [wordNames] at hnil
    omega
  · rfl

/-- A store and a load have a common name exactly if their ranges may
overlap. -/
theorem exists_common_name_iff {a b : Range} (ha : a.IsProper) (hb : b.IsProper) :
    (∃ name ∈ storeNames a.offset a.width, name ∈ loadNames b.offset b.width) ↔
      MayOverlap a b := by
  rcases Range.cover_cases ha with ⟨hempty, hnames, _⟩ | ⟨hunknown, hne, hcover⟩ |
    ⟨first, count, hknown, hne, hcover, hpos, hreaches⟩
  · simp [storeNames, hnames, MayOverlap, hempty]
  · -- what is stored to an unknown range is read from every range
    have hstore : storeNames a.offset a.width = [unknownRegion, anyRegion] := by
      simp [storeNames, hcover, coverNames]
    rcases Range.cover_cases hb with ⟨hempty', _, hload⟩ | ⟨_, hne', hcover'⟩ |
      ⟨first', count', _, hne', hcover', hpos', _⟩
    · simp [hload, MayOverlap, hempty']
    · simp [hstore, loadNames, hcover', MayOverlap, hne, hne', hunknown]
    · simp [hstore, loadNames_words hcover' hpos', MayOverlap, hne, hne', hunknown]
  · have hwords : coverNames (cover a.offset a.width) = wordNames first count := by
      rw [hcover]
      rfl
    have hstore : storeNames a.offset a.width = wordNames first count ++ [anyRegion] := by
      rw [storeNames_eq (by rw [hwords]; simp [wordNames]; omega), hwords]
    rcases Range.cover_cases hb with ⟨hempty', _, hload⟩ | ⟨hunknown', hne', hcover'⟩ |
      ⟨first', count', hknown', hne', hcover', hpos', hreaches'⟩
    · simp [hload, MayOverlap, hempty']
    · simp [hstore, loadNames, hcover', MayOverlap, hne, hne', hunknown']
    · rw [hstore, loadNames_words hcover' hpos']
      constructor
      · rintro ⟨name, hname, hname'⟩
        refine ⟨hne, hne', Or.inr (Or.inr ?_)⟩
        rcases List.mem_append.mp hname with hword | hany
        · obtain ⟨i, hle, hlt, rfl⟩ := mem_wordNames.mp hword
          refine ⟨i, (hreaches i).mpr ⟨hle, hlt⟩, (hreaches' i).mpr ?_⟩
          rcases List.mem_append.mp hname' with hword' | hunk
          · exact wordName_mem_wordNames.mp hword'
          · exact absurd (List.mem_singleton.mp hunk) (wordName_ne_unknownRegion i)
        · -- a load from a known range does not read the node for all of memory
          rw [List.mem_singleton.mp hany] at hname'
          rcases List.mem_append.mp hname' with hword' | hunk
          · exact absurd hword' (anyRegion_not_mem_wordNames first' count')
          · exact absurd (List.mem_singleton.mp hunk) (by decide)
      · rintro ⟨_, _, h | h | ⟨i, hi, hi'⟩⟩
        · exact absurd h hknown
        · exact absurd h hknown'
        · exact ⟨wordName i,
            List.mem_append_left _ (wordName_mem_wordNames.mpr ((hreaches i).mp hi)),
            List.mem_append_left _ (wordName_mem_wordNames.mpr ((hreaches' i).mp hi'))⟩

theorem Range.MayHold.not_isEmpty (h : r.MayHold byte) :
    ¬ r.IsEmpty := by
  rintro ⟨_, hzero⟩
  obtain ⟨offset, width, _, hwidth, hle, hlt⟩ := h
  have := hwidth 0 hzero
  omega

theorem Range.MayHold.isProper (h : r.MayHold byte) : r.IsProper := by
  intro width hwidth
  obtain ⟨offset, known, _, hknown, hle, hlt⟩ := h
  have := hknown width hwidth
  omega

/-- The word of a byte that a range may hold is reached unless the range is unknown. -/
theorem Range.MayHold.reaches (h : r.MayHold byte) :
    r.IsUnknown ∨ r.Reaches (byte / 32) := by
  obtain ⟨offset, width, hoffset, hwidth, hle, hlt⟩ := h
  obtain ⟨o, w⟩ := r
  match o, w with
  | none, _ => exact Or.inl (Or.inl rfl)
  | some o, none => exact Or.inl (Or.inr (Or.inl rfl))
  | some o, some w =>
    obtain rfl : o = offset := hoffset o rfl
    obtain rfl : w = width := hwidth w rfl
    exact Or.inr ⟨o, w, rfl, by omega, by omega⟩

/-- Two ranges that may hold a common byte may touch a common word. -/
theorem mayOverlap_of_mayHold {a b : Range} (ha : a.MayHold byte) (hb : b.MayHold byte) :
    MayOverlap a b := by
  refine ⟨ha.not_isEmpty, hb.not_isEmpty, ?_⟩
  rcases ha.reaches with h | h
  · exact Or.inl h
  · rcases hb.reaches with h' | h'
    · exact Or.inr (Or.inl h')
    · exact Or.inr (Or.inr ⟨byte / 32, h, h'⟩)

open YulTaint.Graph (Extends)

theorem Operation.extends_run (hg : g.Indexed) (op : Operation) :
    Extends g (op.run g).2 := by
  cases op with
  | resolve r => exact (resolve_named g r.offset r.width).1
  | store a => exact (store_spec g _ _ _ _ _ _ rfl).1
  | load a => exact (load_spec hg _ _ _ _ _ rfl).1

theorem extends_runAll (hg : g.Indexed) (ops : List Operation) :
    Extends g (runAll g ops).2 := by
  induction ops generalizing g with
  | nil => exact Extends.refl g
  | cons op rest ih =>
    have hfirst := op.extends_run hg
    exact hfirst.trans (ih (hfirst.indexed hg))

/-- An operation of a run is run on some graph of the run. -/
theorem exists_run (hg : g.Indexed) {ops : List Operation} {i : Nat} {op : Operation}
    (h : ops[i]? = some op) :
    ∃ g', g'.Indexed ∧ (runAll g ops).1[i]? = some (op.run g').1 ∧
      Extends (op.run g').2 (runAll g ops).2 := by
  induction ops generalizing g i with
  | nil => simp at h
  | cons first rest ih =>
    have hfirst := (first.extends_run hg).indexed hg
    cases i with
    | zero =>
      cases h
      exact ⟨g, hg, rfl, extends_runAll hfirst rest⟩
    | succ i => exact ih hfirst h

/-- A store and a load of a run share a node exactly if their ranges may touch
a common word, as two ranges with a common byte do. Through a shared node the
result of the load depends on the value, the offset and the block of the
store. -/
theorem store_load_alias {g : Graph} (hg : g.Indexed) {ops : List Operation} {i j : Nat}
    {a : Store} {b : Load} (hi : ops[i]? = some (.store a)) (hj : ops[j]? = some (.load b))
    (ha : a.range.IsProper) (hb : b.range.IsProper) :
    ∃ written read, (runAll g ops).1[i]? = some written ∧ (runAll g ops).1[j]? = some read ∧
      ((∃ word ∈ written, word ∈ read) ↔ MayOverlap a.range b.range) ∧
      (∀ byte, a.range.MayHold byte → b.range.MayHold byte → ∃ word ∈ written, word ∈ read) ∧
      ∀ word ∈ written, word ∈ read →
        ⟨a.valueVar, word⟩ ∈ (runAll g ops).2.edges ∧
        ⟨word, b.resultVar⟩ ∈ (runAll g ops).2.edges ∧
        ⟨a.offsetVar, word⟩ ∈ (runAll g ops).2.edges ∧
        ∀ block, a.block = some block → ⟨block, word⟩ ∈ (runAll g ops).2.edges := by
  obtain ⟨g₁, hg₁, hwritten, hafter₁⟩ := exists_run hg hi
  obtain ⟨g₂, hg₂, hread, hafter₂⟩ := exists_run hg hj
  obtain ⟨_, hnamed₁, hedges₁⟩ :=
    store_spec g₁ a.scope a.offsetVar a.range.offset a.range.width a.valueVar a.block rfl
  obtain ⟨_, hnamed₂, hedges₂⟩ :=
    load_spec hg₂ b.scope b.offsetVar b.range.offset b.range.width b.resultVar rfl
  have hshare := Named.exists_common ((extends_runAll hg ops).indexed hg)
    (hnamed₁.mono hafter₁.toRetains) (hnamed₂.mono hafter₂.toRetains)
  have hiff := hshare.trans (exists_common_name_iff ha hb)
  refine ⟨_, _, hwritten, hread, hiff, ?_, ?_⟩
  · intro byte hbyte hbyte'
    exact hiff.mpr (mayOverlap_of_mayHold hbyte hbyte')
  · intro word hword hword'
    have hdraws := (hedges₁ word hword).mono hafter₁.toRetains
    exact ⟨hdraws.value.1, (hafter₂.draws (hedges₂ word hword')).1, hdraws.offset.1,
      fun block hblock => (hdraws.block block hblock).1⟩

/-- Two offsets, a value to store and a variable to load into. -/
def operandsProgram : Node :=
  .program "operands" [
    .declaration ["source"] (some (.literal (.integer 32) {})) {},
    .declaration ["loaded"] none {},
    .declaration ["target"] (some (.literal (.integer 31) {})) {},
    .declaration ["stored"] (some (.literal (.integer 7) {})) {}] {}

/-- A load of one word, and later a store of two bytes, the first of them in the
word before. -/
def straddling : List Operation :=
  [.load ⟨mainScope, 1, ⟨some 32, some 32⟩, 2⟩, .store ⟨mainScope, 3, ⟨some 31, some 2⟩, 4, some 0⟩]

theorem nodes_operandsProgram :
    (Flow.collect operandsProgram).toOption.any fun g =>
      (g.scope? mainScope).any fun s => decide (s.root = 0 ∧ s.nodes = [0, 1, 2, 3, 4]) := by
  decide +kernel

theorem store_load_alias_straddling :
    ∃ g s written read, Flow.collect operandsProgram = .ok g ∧ g.scope? mainScope = some s ∧
      s.root = 0 ∧ s.nodes = [0, 1, 2, 3, 4] ∧ (runAll g straddling).1[1]? = some written ∧
      (runAll g straddling).1[0]? = some read ∧ ∃ word ∈ written, word ∈ read ∧
        ⟨4, word⟩ ∈ (runAll g straddling).2.edges ∧
        ⟨word, 2⟩ ∈ (runAll g straddling).2.edges ∧
        ⟨0, word⟩ ∈ (runAll g straddling).2.edges := by
  obtain ⟨g, hg, hfound⟩ := Flow.exists_collect nodes_operandsProgram
  obtain ⟨s, hs, hchecks⟩ := (Option.any_eq_true _ _).mp hfound
  obtain ⟨hroot, hnodes⟩ := of_decide_eq_true hchecks
  have hproper {offset width : Int} (h : 0 ≤ width) :
      Range.IsProper ⟨some offset, some width⟩ := by
    rintro _ ⟨⟩
    exact h
  have hhold {offset width : Int} (hle : offset ≤ 32) (hlt : 32 < offset + width) :
      Range.MayHold ⟨some offset, some width⟩ 32 :=
    ⟨offset, width, fun _ h => (Option.some.inj h).symm, fun _ h => (Option.some.inj h).symm,
      hle, hlt⟩
  obtain ⟨written, read, hwritten, hread, _, hbyte, hedges⟩ :=
    store_load_alias (Flow.collected_of_collect hg).coherent.indexed
      (show straddling[1]? = some (.store _) from rfl) (show straddling[0]? = some (.load _) from rfl)
      (hproper (by decide)) (hproper (by decide))
  obtain ⟨word, hword, hword'⟩ :=
    hbyte 32 (hhold (by decide) (by decide)) (hhold (by decide) (by decide))
  obtain ⟨hvalue, hresult, _, hblock⟩ := hedges word hword hword'
  exact ⟨g, s, written, read, hg, hs, hroot, hnodes, hwritten, hread, word, hword, hword',
    hvalue, hresult, hblock 0 rfl⟩

end YulTaint.Memory
