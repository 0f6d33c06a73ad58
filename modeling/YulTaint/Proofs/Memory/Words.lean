import Mathlib.Tactic
import YulTaint.Proofs.Flow.Finished

/-!
The nodes of memory. The names of words are pairwise different and different
from those of the two regions, and a graph has one node for each name in use.
What an access returns is therefore determined by names alone: those of a range
do not depend on the graph, and a graph that grows keeps the nodes it has given
to them.
-/

namespace YulTaint.Text

def shiftIn (n : Nat) (c : Char) : Option Nat :=
  (hexValue? c).map (n * 16 + ·)

theorem hexValue?_digitChar : ∀ d < 16, hexValue? (Nat.digitChar d) = some d := by
  decide

theorem foldlM_toDigits (n : Nat) : (Nat.toDigits 16 n).foldlM shiftIn 0 = some n := by
  induction n using Nat.strong_induction_on with
  | _ n ih =>
    rw [Nat.toDigits_eq_if (by omega)]
    split
    · rename_i hlt
      simp [shiftIn, hexValue?_digitChar n hlt]
    · rename_i hle
      have hlast := hexValue?_digitChar (n % 16) (Nat.mod_lt n (by omega))
      rw [List.foldlM_append, ih (n / 16) (by omega)]
      simp only [List.foldlM_cons, List.foldlM_nil, shiftIn, hlast, Option.map_some,
        Option.bind_eq_bind, Option.bind_some, Option.pure_def]
      congr 1
      omega

theorem foldlM_zeros (k : Nat) (digits : List Char) :
    (List.replicate k '0' ++ digits).foldlM shiftIn 0 = digits.foldlM shiftIn 0 := by
  induction k with
  | zero => rfl
  | succ k ih =>
    have hzero : shiftIn 0 '0' = some 0 := by decide
    rw [List.replicate_succ, List.cons_append, List.foldlM_cons, hzero]
    exact ih

theorem ofHexDigits?_hexDigits (width n : Nat) :
    ofHexDigits? (hexDigits width n).toList = some n := by
  have hread : (hexDigits width n).toList.foldlM shiftIn 0 = some n := by
    rw [hexDigits, String.toList_ofList, foldlM_zeros, foldlM_toDigits]
  cases hdigits : (hexDigits width n).toList with
  | nil =>
    rw [hexDigits, String.toList_ofList, List.append_eq_nil_iff] at hdigits
    exact absurd hdigits.2 Nat.toDigits_ne_nil
  | cons c rest =>
    rw [hdigits] at hread
    exact hread

theorem hexDigits_injective {width m n : Nat} (h : hexDigits width m = hexDigits width n) :
    m = n := by
  have hread := ofHexDigits?_hexDigits width m
  rw [h, ofHexDigits?_hexDigits] at hread
  exact (Option.some.inj hread).symm

theorem toList_hexInt (width : Nat) (n : Int) :
    (hexInt width n).toList =
      (if n < 0 then ['-'] else []) ++ '0' :: 'x' :: (hexDigits width n.natAbs).toList := by
  unfold hexInt
  split
  · simp [String.toList_append]
  · simp [String.toList_append]

/-- Different numbers have different hexadecimal texts. -/
theorem hexInt_injective {width : Nat} {m n : Int} (h : hexInt width m = hexInt width n) :
    m = n := by
  have hlist := congrArg String.toList h
  rw [toList_hexInt, toList_hexInt] at hlist
  have habs (hdigits : (hexDigits width m.natAbs).toList = (hexDigits width n.natAbs).toList) :
      m.natAbs = n.natAbs :=
    hexDigits_injective (String.toList_inj.mp hdigits)
  by_cases hm : m < 0
  · by_cases hn : n < 0
    · simp only [hm, hn, if_true, List.cons_append, List.nil_append, List.cons.injEq,
        true_and] at hlist
      have := habs hlist
      omega
    · simp [hm, hn] at hlist
  · by_cases hn : n < 0
    · simp [hm, hn] at hlist
    · simp only [hm, hn, if_false, List.nil_append, List.cons.injEq, true_and] at hlist
      have := habs hlist
      omega

end YulTaint.Text

namespace YulTaint.Memory

theorem wordName_injective {i j : Int} (h : wordName i = wordName j) : i = j := by
  have hhex : Text.hexInt 2 (i * wordSize) = Text.hexInt 2 (j * wordSize) := by
    have hlist := congrArg String.toList h
    simp only [wordName, String.toList_append] at hlist
    exact String.toList_inj.mp (List.append_cancel_left (List.append_cancel_right hlist))
  have hsame := Text.hexInt_injective hhex
  simp only [wordSize] at hsame
  omega

/-- After the bracket a word's name goes on with a sign or a digit. -/
theorem wordName_head (i : Int) :
    ∃ rest, (wordName i).toList = "memory[".toList ++ '-' :: rest ∨
      (wordName i).toList = "memory[".toList ++ '0' :: rest := by
  simp only [wordName, String.toList_append, Text.toList_hexInt]
  split
  · exact ⟨_, Or.inl (by rw [List.append_assoc]; rfl)⟩
  · exact ⟨_, Or.inr (by rw [List.append_assoc]; rfl)⟩

theorem wordName_ne_unknownRegion (i : Int) : wordName i ≠ unknownRegion := by
  intro h
  obtain ⟨rest, hrest | hrest⟩ := wordName_head i
  · simp [h, unknownRegion] at hrest
  · simp [h, unknownRegion] at hrest

theorem wordName_ne_anyRegion (i : Int) : wordName i ≠ anyRegion := by
  intro h
  obtain ⟨rest, hrest | hrest⟩ := wordName_head i
  · simp [h, anyRegion] at hrest
  · simp [h, anyRegion] at hrest

theorem mem_wordNames {name : String} {first : Int} {count : Nat} :
    name ∈ wordNames first count ↔
      ∃ i, first ≤ i ∧ i < first + count ∧ name = wordName i := by
  simp only [wordNames, List.mem_map, List.mem_range]
  constructor
  · rintro ⟨k, hk, rfl⟩
    exact ⟨first + k, by omega, by omega, rfl⟩
  · rintro ⟨i, hle, hlt, rfl⟩
    exact ⟨(i - first).toNat, by omega, congrArg wordName (by omega)⟩

theorem wordName_mem_wordNames {i first : Int} {count : Nat} :
    wordName i ∈ wordNames first count ↔ first ≤ i ∧ i < first + count := by
  rw [mem_wordNames]
  constructor
  · rintro ⟨j, hle, hlt, h⟩
    rw [wordName_injective h]
    exact ⟨hle, hlt⟩
  · rintro ⟨hle, hlt⟩
    exact ⟨i, hle, hlt, rfl⟩

theorem unknownRegion_not_mem_wordNames (first : Int) (count : Nat) :
    unknownRegion ∉ wordNames first count := by
  rw [mem_wordNames]
  rintro ⟨i, _, _, h⟩
  exact wordName_ne_unknownRegion i h.symm

theorem anyRegion_not_mem_wordNames (first : Int) (count : Nat) :
    anyRegion ∉ wordNames first count := by
  rw [mem_wordNames]
  rintro ⟨i, _, _, h⟩
  exact wordName_ne_anyRegion i h.symm

def storeNames (offset width : Option Int) : List String :=
  match coverNames (cover offset width) with
  | [] => []
  | names => names ++ [anyRegion]

theorem storeNames_eq {offset width : Option Int} (h : coverNames (cover offset width) ≠ []) :
    storeNames offset width = coverNames (cover offset width) ++ [anyRegion] := by
  unfold storeNames
  split
  · rename_i hnil
    exact absurd hnil h
  · rfl

def loadNames (offset width : Option Int) : List String :=
  match cover offset width with
  | .words first count =>
    match wordNames first count with
    | [] => []
    | names => names ++ [unknownRegion]
  | .unknown => [anyRegion]

end YulTaint.Memory

namespace YulTaint.Graph

structure Indexed (g : Graph) : Prop where
  lt : ∀ name id, g.globals.lookup name = some id → id < g.size
  injective : ∀ name name' id, g.globals.lookup name = some id →
    g.globals.lookup name' = some id → name = name'

def Draws (g : Graph) (sc : String) (a b : NodeId) : Prop :=
  ⟨a, b⟩ ∈ g.edges ∧ ∀ s, g.scope? sc = some s → ⟨a, b⟩ ∈ s.edges

/-- Edges stay, and so do the nodes of names. -/
structure Retains (g g' : Graph) : Prop where
  words : ∀ name id, g.globals.lookup name = some id → g'.globals.lookup name = some id
  edges : ∀ e ∈ g.edges, e ∈ g'.edges
  locals : ∀ name s', g'.scope? name = some s' →
    ∃ s, g.scope? name = some s ∧ ∀ e ∈ s.edges, e ∈ s'.edges

/-- One graph comes from another by more edges and more shared nodes. -/
structure Extends (g g' : Graph) : Prop extends Retains g g' where
  size : g.size ≤ g'.size
  old : ∀ id, id < g.size → g'.node? id = g.node? id
  new : ∀ id n, g.size ≤ id → g'.node? id = some n → n = sharedNode n.name
  indexed : g.Indexed → g'.Indexed

theorem Coherent.indexed {g : Graph} (hg : g.Coherent) : g.Indexed := by
  have hnode (name : String) (id : NodeId) (h : g.globals.lookup name = some id) :
      ∃ n, g.node? id = some n ∧ n.name = name := by
    obtain ⟨n, hn, _, hname⟩ := hg.globals name id (mem_of_lookup_eq_some h)
    exact ⟨n, hn, hname⟩
  refine ⟨?_, ?_⟩
  · intro name id h
    obtain ⟨n, hn, _⟩ := hnode name id h
    exact lt_size_of_node? hn
  · intro name name' id h h'
    obtain ⟨n, hn, hname⟩ := hnode name id h
    obtain ⟨n', hn', hname'⟩ := hnode name' id h'
    cases hn.symm.trans hn'
    exact hname.symm.trans hname'

section Extends

variable {g g' g'' : Graph} {sc : String} {a b : NodeId}

theorem Retains.refl (g : Graph) : Retains g g :=
  ⟨fun _ _ h => h, fun _ he => he, fun _ s hs => ⟨s, hs, fun _ he => he⟩⟩

theorem Retains.trans (h : Retains g g') (h' : Retains g' g'') : Retains g g'' := by
  refine ⟨fun name id hid => h'.words name id (h.words name id hid),
    fun e he => h'.edges e (h.edges e he), ?_⟩
  intro name s'' hs''
  obtain ⟨s', hs', hsub'⟩ := h'.locals name s'' hs''
  obtain ⟨s, hs, hsub⟩ := h.locals name s' hs'
  exact ⟨s, hs, fun e he => hsub' e (hsub e he)⟩

theorem Retains.draws (h : Retains g g') (hdraws : g.Draws sc a b) : g'.Draws sc a b := by
  refine ⟨h.edges _ hdraws.1, ?_⟩
  intro s' hs'
  obtain ⟨s, hs, hsub⟩ := h.locals sc s' hs'
  exact hsub _ (hdraws.2 s hs)

theorem Extends.refl (g : Graph) : Extends g g where
  toRetains := Retains.refl g
  size := Nat.le_refl _
  old _ _ := rfl
  new _ _ hle hn := absurd (lt_size_of_node? hn) (Nat.not_lt.mpr hle)
  indexed h := h

theorem Extends.trans (h : Extends g g') (h' : Extends g' g'') : Extends g g'' where
  toRetains := h.toRetains.trans h'.toRetains
  size := h.size.trans h'.size
  old id hid := (h'.old id (hid.trans_le h.size)).trans (h.old id hid)
  new id n hle hn := by
    rcases Nat.lt_or_ge id g'.size with hlt | hge
    · rw [h'.old id hlt] at hn
      exact h.new id n hle hn
    · exact h'.new id n hge hn
  indexed hg := h'.indexed (h.indexed hg)

theorem Extends.foldl {α : Type} {f : Graph → α → Graph} (hf : ∀ g x, Extends g (f g x))
    (items : List α) (g : Graph) : Extends g (items.foldl f g) := by
  induction items generalizing g with
  | nil => exact Extends.refl g
  | cons x rest ih => exact (hf g x).trans (ih (f g x))

/-- What each item draws is there after all of them. -/
theorem Extends.foldl_draws {α : Type} {f : Graph → α → Graph} (hf : ∀ g x, Extends g (f g x))
    {items : List α} {x : α} (hx : x ∈ items) (hdraws : ∀ g, (f g x).Draws sc a b) (g : Graph) :
    (items.foldl f g).Draws sc a b := by
  obtain ⟨before, after, rfl⟩ := List.append_of_mem hx
  rw [List.foldl_append, List.foldl_cons]
  exact (Extends.foldl hf after _).draws (hdraws _)

theorem draws_addEdge (g : Graph) (sc : String) (a b : NodeId) :
    (g.addEdge sc a b).Draws sc a b := by
  refine ⟨(mem_edges_addEdge g sc a b _).mpr (Or.inl rfl), ?_⟩
  intro s' hs'
  rw [scope?_addEdge, if_pos rfl] at hs'
  obtain ⟨s, _, rfl⟩ := Option.map_eq_some_iff.mp hs'
  exact (mem_insertEdge _ _ _).mpr (Or.inl rfl)

theorem extends_addEdge (g : Graph) (sc : String) (a b : NodeId) :
    Extends g (g.addEdge sc a b) := by
  refine ⟨⟨fun _ _ h => h, ?_, ?_⟩, Nat.le_refl _, fun _ _ => rfl, (Extends.refl g).new,
    fun h => ⟨h.lt, h.injective⟩⟩
  · exact fun e he => (mem_edges_addEdge g sc a b e).mpr (Or.inr he)
  · intro name s' hs'
    rw [scope?_addEdge] at hs'
    split at hs'
    · obtain ⟨s, hs, rfl⟩ := Option.map_eq_some_iff.mp hs'
      exact ⟨s, hs, fun e he => (mem_insertEdge _ _ _).mpr (Or.inr he)⟩
    · exact ⟨s', hs', fun _ he => he⟩

/-- The node of a name is found again, and is made only if there is none. -/
theorem extends_global (g : Graph) (name : String) :
    Extends g (g.global name).2 ∧
      (g.global name).2.globals.lookup name = some (g.global name).1 := by
  rcases global_eq g name with ⟨id, hlookup, heq⟩ | ⟨hnone, heq⟩
  · rw [heq]
    exact ⟨Extends.refl g, hlookup⟩
  · rw [heq]
    have hlookup (other : String) : (g.globals ++ [(name, g.size)]).lookup other =
        (g.globals.lookup other).or (if other = name then some g.size else none) := by
      rw [List.lookup_append]
      congr 1
      by_cases h : other = name
      · simp [h]
      · rw [if_neg h, lookup_eq_none_of_not_mem (by simpa using h)]
    refine ⟨⟨⟨?_, fun _ he => he, fun _ s hs => ⟨s, hs, fun _ he => he⟩⟩, ?_, ?_, ?_, ?_⟩, ?_⟩
    · intro other id hid
      simp only [hlookup, hid, Option.some_or]
    · exact Nat.le_of_lt (by simp [Graph.size, push])
    · intro id hid
      exact (node?_push g _ id).trans (if_neg (Nat.ne_of_lt hid))
    · intro id n hle hn
      have hnode := (node?_push g (sharedNode name) id).symm.trans hn
      split at hnode
      · obtain rfl := Option.some.inj hnode
        rfl
      · exact absurd (lt_size_of_node? hnode) (Nat.not_lt.mpr hle)
    · intro hg
      have hcases (other : String) (id : NodeId)
          (h : (g.globals ++ [(name, g.size)]).lookup other = some id) :
          (g.globals.lookup other = some id ∧ id < g.size) ∨ (other = name ∧ id = g.size) := by
        rw [hlookup, Option.or_eq_some_iff] at h
        rcases h with hold | ⟨_, hnew⟩
        · exact Or.inl ⟨hold, hg.lt other id hold⟩
        · split at hnew
          · exact Or.inr ⟨by assumption, (Option.some.inj hnew).symm⟩
          · cases hnew
      refine ⟨?_, ?_⟩
      · intro other id hid
        have hsize : g.size < Graph.size { g.push (sharedNode name) with
            globals := g.globals ++ [(name, g.size)] } := by simp [Graph.size, push]
        rcases hcases other id hid with ⟨_, hlt⟩ | ⟨_, rfl⟩
        · exact hlt.trans hsize
        · exact hsize
      · intro other other' id hid hid'
        rcases hcases other id hid with ⟨hold, hlt⟩ | ⟨rfl, rfl⟩
        · rcases hcases other' id hid' with ⟨hold', _⟩ | ⟨_, rfl⟩
          · exact hg.injective other other' id hold hold'
          · exact absurd hlt (Nat.lt_irrefl _)
        · rcases hcases other' g.size hid' with ⟨_, hlt⟩ | ⟨rfl, _⟩
          · exact absurd hlt (Nat.lt_irrefl _)
          · rfl
    · simp [hlookup, hnone]

end Extends

end YulTaint.Graph

namespace YulTaint.Memory

open YulTaint.Graph (Extends Retains extends_addEdge extends_global draws_addEdge)

def Named (g : Graph) (names : List String) (ids : List NodeId) : Prop :=
  List.Forall₂ (fun name id => g.globals.lookup name = some id) names ids

variable {g g' : Graph} {names : List String} {ids : List NodeId}

theorem Named.mono (h : Named g names ids) (hg : Retains g g') : Named g' names ids :=
  h.imp fun name id hid => hg.words name id hid

/-- In two lists of nodes there is a common one exactly if there is a common
name. -/
theorem Named.exists_common (hg : g.Indexed) {names' : List String} {ids' : List NodeId}
    (h : Named g names ids) (h' : Named g names' ids') :
    (∃ id ∈ ids, id ∈ ids') ↔ ∃ name ∈ names, name ∈ names' := by
  constructor
  · rintro ⟨id, hid, hid'⟩
    obtain ⟨name, hname, hlookup⟩ := exists_of_mem_right h hid
    obtain ⟨name', hname', hlookup'⟩ := exists_of_mem_right h' hid'
    exact ⟨name, hname, hg.injective name name' id hlookup hlookup' ▸ hname'⟩
  · rintro ⟨name, hname, hname'⟩
    obtain ⟨id, hid, hlookup⟩ := exists_of_mem_left h hname
    obtain ⟨id', hid', hlookup'⟩ := exists_of_mem_left h' hname'
    cases hlookup.symm.trans hlookup'
    exact ⟨id, hid, hid'⟩

theorem globals_named (g : Graph) (names : List String) :
    Extends g (globals g names).2 ∧ Named (globals g names).2 names (globals g names).1 := by
  induction names generalizing g with
  | nil => exact ⟨Extends.refl g, .nil⟩
  | cons name rest ih =>
    obtain ⟨hfirst, hlookup⟩ := extends_global g name
    obtain ⟨hrest, hnamed⟩ := ih (g.global name).2
    exact ⟨hfirst.trans hrest, .cons (hrest.words _ _ hlookup) hnamed⟩

theorem resolve_named (g : Graph) (offset width : Option Int) :
    Extends g (resolve g offset width).2 ∧
      Named (resolve g offset width).2 (coverNames (cover offset width))
        (resolve g offset width).1 :=
  globals_named g _

theorem Named.eq_nil_iff (h : Named g names ids) : ids = [] ↔ names = [] := by
  cases h with
  | nil => simp
  | cons => simp

/-- The nodes of a range are the unknown region alone exactly if the range is
unknown. -/
theorem isKnown_iff (hg : g.Indexed) {c : Cover} (h : Named g (coverNames c) ids) :
    isKnown g ids = true ↔ c ≠ .unknown := by
  unfold isKnown
  cases c with
  | unknown =>
    have hnamed : Named g [unknownRegion] ids := h
    obtain ⟨id, rest, hlookup, hrest, rfl⟩ := List.forall₂_cons_left_iff.mp hnamed
    rw [List.forall₂_nil_left_iff.mp hrest, hlookup]
    simp
  | words first count =>
    cases hlookup : g.globals.lookup unknownRegion with
    | none => simp
    | some unknown =>
      have hne : ids ≠ [unknown] := by
        rintro rfl
        obtain ⟨name, hname, hid⟩ := exists_of_mem_right h List.mem_cons_self
        rw [← hg.injective _ _ _ hlookup hid] at hname
        exact unknownRegion_not_mem_wordNames first count hname
      simp [hne]

theorem extends_writeWord (sc : String) (offsetVar valueVar : NodeId) (block : Option NodeId)
    (g : Graph) (word : NodeId) : Extends g (writeWord sc offsetVar valueVar block g word) := by
  have hvalue := extends_addEdge g sc valueVar word
  have hoffset : Extends g (if offsetVar = valueVar then g.addEdge sc valueVar word
      else (g.addEdge sc valueVar word).addEdge sc offsetVar word) := by
    split
    · exact hvalue
    · exact hvalue.trans (extends_addEdge _ _ _ _)
  cases block with
  | none => exact hoffset
  | some block => exact hoffset.trans (extends_addEdge _ _ _ _)

/-- What a written word depends on. -/
structure Written (g : Graph) (sc : String) (offsetVar valueVar : NodeId) (block : Option NodeId)
    (word : NodeId) : Prop where
  value : g.Draws sc valueVar word
  offset : g.Draws sc offsetVar word
  block : ∀ b, block = some b → g.Draws sc b word

/-- A written word takes from the value, from the offset and from the block. -/
theorem writeWord_written (sc : String) (offsetVar valueVar : NodeId) (block : Option NodeId)
    (g : Graph) (word : NodeId) :
    Written (writeWord sc offsetVar valueVar block g word) sc offsetVar valueVar block word := by
  let g₁ := g.addEdge sc valueVar word
  let g₂ := if offsetVar = valueVar then g₁ else g₁.addEdge sc offsetVar word
  have h₁ : Extends g₁ g₂ := by
    simp only [g₂]
    split
    · exact Extends.refl g₁
    · exact extends_addEdge _ _ _ _
  have hvalue : g₂.Draws sc valueVar word := h₁.draws (draws_addEdge g sc valueVar word)
  have hoffset : g₂.Draws sc offsetVar word := by
    by_cases h : offsetVar = valueVar
    · rw [h]
      exact hvalue
    · simp only [g₂, if_neg h]
      exact draws_addEdge g₁ sc offsetVar word
  cases block with
  | none => exact ⟨hvalue, hoffset, fun b hb => by cases hb⟩
  | some block =>
    have h₂ := extends_addEdge g₂ sc block word
    refine ⟨h₂.draws hvalue, h₂.draws hoffset, ?_⟩
    rintro b ⟨⟩
    exact draws_addEdge g₂ sc block word

theorem Written.mono {sc : String} {offsetVar valueVar word : NodeId} {block : Option NodeId}
    (h : Written g sc offsetVar valueVar block word) (hg : Retains g g') :
    Written g' sc offsetVar valueVar block word :=
  ⟨hg.draws h.value, hg.draws h.offset, fun b hb => hg.draws (h.block b hb)⟩

/-- A store returns the nodes of its range and the node for all of memory, and
makes each of them depend on the value, the offset and the block. -/
theorem store_spec (g : Graph) (sc : String) (offsetVar : NodeId) (offset width : Option Int)
    (valueVar : NodeId) (block : Option NodeId) {ids : List NodeId}
    (h : store g sc offsetVar offset width valueVar block = (ids, g')) :
    Extends g g' ∧ Named g' (storeNames offset width) ids ∧
      ∀ word ∈ ids, Written g' sc offsetVar valueVar block word := by
  have hresolve := resolve_named g offset width
  rw [store_eq] at h
  rcases hres : resolve g offset width with ⟨words, g₁⟩
  simp only [hres] at h hresolve
  obtain ⟨hext, hnamed⟩ := hresolve
  split at h
  · rename_i hnil
    cases h
    refine ⟨hext, ?_, List.forall_mem_nil _⟩
    rw [storeNames, hnamed.eq_nil_iff.mp hnil]
    exact .nil
  · rename_i hcons
    have hnames := storeNames_eq fun hnil => hcons (hnamed.eq_nil_iff.mpr hnil)
    obtain ⟨hall, hlookup⟩ := extends_global g₁ anyRegion
    generalize g₁.global anyRegion = global at h hall hlookup
    obtain ⟨all, g₂⟩ := global
    cases h
    have hwrite := Extends.foldl (extends_writeWord sc offsetVar valueVar block)
      (words ++ [all]) g₂
    refine ⟨hext.trans (hall.trans hwrite), ?_, ?_⟩
    · rw [hnames]
      exact List.rel_append (hnamed.mono (hall.trans hwrite).toRetains)
        (.cons (hwrite.words _ _ hlookup) .nil)
    · intro word hword
      obtain ⟨before, after, heq⟩ := List.append_of_mem hword
      rw [heq, List.foldl_append, List.foldl_cons]
      exact (writeWord_written sc offsetVar valueVar block _ word).mono
        (Extends.foldl (extends_writeWord sc offsetVar valueVar block) after _).toRetains

/-- The nodes read have the names that a load from the range returns. -/
theorem readNodes_named (hg : g.Indexed) {offset width : Option Int}
    (h : Named g (coverNames (cover offset width)) ids) (hne : ids ≠ []) :
    Extends g (readNodes g ids).2 ∧
      Named (readNodes g ids).2 (loadNames offset width) (readNodes g ids).1 := by
  have hknown := isKnown_iff hg h
  unfold readNodes loadNames
  cases hc : cover offset width with
  | unknown =>
    obtain ⟨hall, hlookup⟩ := extends_global g anyRegion
    rw [if_neg fun hk => hknown.mp hk hc]
    exact ⟨hall, .cons hlookup .nil⟩
  | words first count =>
    obtain ⟨hunknown, hlookup⟩ := extends_global g unknownRegion
    rw [hc] at h
    have hwords : wordNames first count ≠ [] := fun hnil => hne (h.eq_nil_iff.mpr hnil)
    rw [if_pos (hknown.mpr (by rw [hc]; exact Cover.noConfusion))]
    refine ⟨hunknown, ?_⟩
    have hnamed := List.rel_append (h.mono hunknown.toRetains) (.cons hlookup .nil)
    cases hnames : wordNames first count with
    | nil => exact absurd hnames hwords
    | cons name rest =>
      rw [coverNames, hnames] at hnamed
      simp only [hnames]
      exact hnamed

theorem extends_readNodes (g : Graph) (ids : List NodeId) : Extends g (readNodes g ids).2 := by
  unfold readNodes
  split
  · exact (extends_global g unknownRegion).1
  · exact (extends_global g anyRegion).1

theorem extends_load (g : Graph) (sc : String) (offsetVar : NodeId) (offset width : Option Int)
    (resultVar : NodeId) : Extends g (load g sc offsetVar offset width resultVar).2 := by
  have hresolve := (resolve_named g offset width).1
  rw [load_eq]
  split
  · exact hresolve
  · have hedge (g : Graph) (word : NodeId) := extends_addEdge g sc word resultVar
    exact (hresolve.trans (extends_readNodes _ _)).trans
      ((Extends.foldl hedge _ _).trans (hedge _ offsetVar))

/-- A load returns the nodes of its range, if they are known, and the unknown
region, or else the node for all of memory; the result depends on each. -/
theorem load_spec (hg : g.Indexed) (sc : String) (offsetVar : NodeId) (offset width : Option Int)
    (resultVar : NodeId) {ids : List NodeId}
    (h : load g sc offsetVar offset width resultVar = (ids, g')) :
    Extends g g' ∧ Named g' (loadNames offset width) ids ∧
      ∀ word ∈ ids, g'.Draws sc word resultVar := by
  have hresolve := resolve_named g offset width
  rw [load_eq] at h
  rcases hres : resolve g offset width with ⟨words, g₁⟩
  simp only [hres] at h hresolve
  obtain ⟨hext, hnamed⟩ := hresolve
  split at h
  · rename_i hnil
    cases h
    have hnames := hnamed.eq_nil_iff.mp hnil
    refine ⟨hext, ?_, List.forall_mem_nil _⟩
    unfold loadNames
    cases hc : cover offset width with
    | unknown => simp [hc, coverNames] at hnames
    | words first count =>
      have hwords : wordNames first count = [] := by simpa [hc, coverNames] using hnames
      simp only [hwords]
      exact .nil
  · rename_i hcons
    obtain ⟨hread, hnamed'⟩ := readNodes_named (hext.indexed hg) hnamed hcons
    generalize readNodes g₁ words = result at h hread hnamed'
    obtain ⟨read, g₂⟩ := result
    cases h
    have hedge (g : Graph) (word : NodeId) := extends_addEdge g sc word resultVar
    have hlast := hedge (read.foldl (fun g word => g.addEdge sc word resultVar) g₂) offsetVar
    have hall := (Extends.foldl hedge read g₂).trans hlast
    refine ⟨hext.trans (hread.trans hall), hnamed'.mono hall.toRetains, ?_⟩
    intro word hword
    exact hlast.draws (Extends.foldl_draws hedge hword
      (fun g => draws_addEdge g sc word resultVar) g₂)

end YulTaint.Memory
