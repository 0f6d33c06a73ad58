import Mathlib.Tactic
import YulTaint.Proofs.Execution.Callees

/-!
Which names stand for a variable and for a function at once. By the text alone, a
place sees the variables that are declared before it in the blocks around it, up
to the function that it belongs to, and the functions of all blocks around it. No
variable is declared where a function of its name is seen. A function, however,
may be defined in a block that already sees a variable of its name, and then both
are seen in that block: names clash there and nowhere else.
-/

namespace YulTaint

namespace Node

/-- Code at a place sees a variable of that name: a node around it in the same function
binds the name for the part that the code is in. -/
def SeesVariable (root : Node) (x : Place) (name : String) (d : Place) : Prop :=
  ∃ n j, root.at? d = some n ∧ d ++ [j] <+: x ∧ root.IsWithin x d ∧ name ∈ n.binds j

/-- Code at a place sees the function of that name that is defined at another
place, in a block around the code. -/
def SeesFunction (root : Node) (x : Place) (name : String) (d : Place) : Prop :=
  ∃ q i j, d = q ++ [i] ∧ q ++ [j] <+: x ∧
    ∃ params returns body loc, root.at? d = some (.function name params returns body loc)

/-- Code at a place sees a variable and a function of that name. -/
def Clashes (root : Node) (x : Place) (name : String) : Prop :=
  (∃ d, root.SeesVariable x name d) ∧ ∃ d, root.SeesFunction x name d

end Node

/-- The names that a place sees are those that the text shows it. -/
structure Sight.IsSeenAt (v : Sight) (root : Node) (x : Place) : Prop where
  locals : ∀ name, name ∈ v.locals ↔ ∃ d, root.SeesVariable x name d
  functions : ∀ name, (∃ f ∈ v.functions, f.name = name) ↔ ∃ d, root.SeesFunction x name d

namespace Node

open Lexical (isWithin_step not_isFunctionAt)

variable {root n : Node} {p q x : Place} {name : String}

theorem IsWithin.of_prefix (h : root.IsWithin x q) (hqp : q <+: p) (hpx : p <+: x) :
    root.IsWithin p q := by
  refine ⟨hqp, fun d hqd hdp hne hne' => h.2 d hqd (hdp.trans hpx) hne fun hdx => hne' ?_⟩
  exact hdp.eq_of_length_le (hdx ▸ hpx).length_le

theorem IsWithin.below (h : root.IsWithin x q) (hqp : q <+: p) (hpx : p <+: x) :
    root.IsWithin x p := by
  refine ⟨hpx, fun d hpd hdx hne hne' => h.2 d (hqp.trans hpd) hdx (fun hdq => hne ?_) hne'⟩
  exact (hpd.eq_of_length_le (hdq ▸ hqp).length_le).symm

theorem IsWithin.trans (h : root.IsWithin x p) (hp : ¬ root.IsFunctionAt p)
    (hpq : root.IsWithin p q) : root.IsWithin x q := by
  refine ⟨hpq.1.trans h.1, fun d hqd hdx hne hne' => ?_⟩
  by_cases hd : d = p
  · exact hd ▸ hp
  rcases List.prefix_or_prefix_of_prefix hdx h.1 with hdp | hpd
  · exact hpq.2 d hqd hdp hne hd
  · exact h.2 d hpd hdx hd hne'

theorem ne_step (h : q <+: p) (j : Nat) : q ≠ p ++ [j] := by
  rintro rfl
  simpa using h.length_le

/-- The way to a part of a node comes from the node or from above it. -/
theorem eq_or_prefix_of_step {i j : Nat} (h : q ++ [i] <+: p ++ [j]) :
    q = p ∧ i = j ∨ q ++ [i] <+: p ∧ q <+: p := by
  rcases List.prefix_concat_iff.mp h with heq | hp
  · obtain ⟨hq, hi⟩ := List.append_inj' heq rfl
    exact .inl ⟨hq, List.singleton_inj.mp hi⟩
  · exact .inr ⟨hp, (List.prefix_append q [i]).trans hp⟩

theorem exists_step_of_prefix (h : q <+: x) (hne : q ≠ x) : ∃ j, q ++ [j] <+: x := by
  obtain ⟨r, rfl⟩ := h
  cases r with
  | nil => exact absurd (List.append_nil q).symm hne
  | cons j r => exact ⟨j, r, by simp⟩

/-- What a node sees as a variable, all code of the same function in it does. -/
theorem SeesVariable.inside {d : Place} (h : root.SeesVariable q name d)
    (hq : ¬ root.IsFunctionAt q) (hwithin : root.IsWithin x q) : root.SeesVariable x name d := by
  obtain ⟨n, j, hd, hx, hwithin', hname⟩ := h
  exact ⟨n, j, hd, hx.trans hwithin.1, hwithin.trans hq hwithin', hname⟩

/-- A part of a node sees the variables that the node binds for it, and unless the node
is a function those that the node sees. -/
theorem seesVariable_part (hat : root.at? p = some n) (j : Nat) :
    (∃ d, root.SeesVariable (p ++ [j]) name d) ↔
      name ∈ n.binds j ∨ ¬ n.IsFunction ∧ ∃ d, root.SeesVariable p name d := by
  have hpx := List.prefix_append p [j]
  constructor
  · rintro ⟨d, m, k, hd, hx, hwithin, hname⟩
    rcases eq_or_prefix_of_step hx with ⟨rfl, rfl⟩ | ⟨hx, hdp⟩
    · cases hat.symm.trans hd
      exact .inl hname
    · refine .inr ⟨fun hn => ?_, d, m, k, hd, hx, hwithin.of_prefix hdp hpx, hname⟩
      refine hwithin.2 p hdp hpx ?_ (ne_step (List.prefix_refl p) j) ⟨n, hat, hn⟩
      rintro rfl
      exact ne_step hx k rfl
  · rintro (hname | ⟨hn, d, h⟩)
    · exact ⟨p, n, j, hat, List.prefix_refl _, isWithin_step root p j, hname⟩
    · exact ⟨d, h.inside (not_isFunctionAt hat hn) (isWithin_step root p j)⟩

theorem exists_mem_signatures {items : List Node} : (∃ f ∈ signatures items, f.name = name) ↔
    ∃ i : Nat, ∃ params returns body loc,
      items[i]? = some (.function name params returns body loc) := by
  have hnames := Lexical.map_name_entries [] 0 items
  rw [← List.mem_map, ← hnames, List.mem_map]
  constructor
  · rintro ⟨e, he, rfl⟩
    obtain ⟨i, hi, _⟩ := Lexical.mem_entries.mp he
    exact ⟨i, _, _, _, _, hi⟩
  · rintro ⟨i, params, returns, body, loc, hi⟩
    exact ⟨⟨[i], name, params, returns, body, loc⟩,
      Lexical.mem_entries.mpr ⟨i, hi, by rw [Nat.zero_add]; rfl⟩, rfl⟩

/-- A part of a node sees the functions that the node sees and those that are parts
of the node themselves. -/
theorem seesFunction_part (hat : root.at? p = some n) (j : Nat) :
    (∃ d, root.SeesFunction (p ++ [j]) name d) ↔
      (∃ f ∈ signatures n.parts, f.name = name) ∨ ∃ d, root.SeesFunction p name d := by
  rw [exists_mem_signatures]
  constructor
  · rintro ⟨_, q, i, k, rfl, hx, params, returns, body, loc, hf⟩
    rcases eq_or_prefix_of_step hx with ⟨rfl, _⟩ | ⟨hx, _⟩
    · rw [at?_step hat] at hf
      exact .inl ⟨i, params, returns, body, loc, hf⟩
    · exact .inr ⟨_, q, i, k, rfl, hx, params, returns, body, loc, hf⟩
  · rintro (⟨i, hf⟩ | ⟨d, q, i, k, rfl, hx, hf⟩)
    · rw [← at?_step hat] at hf
      exact ⟨_, p, i, j, rfl, List.prefix_refl _, hf⟩
    · exact ⟨_, q, i, k, rfl, hx.trans (List.prefix_append p [j]), hf⟩

/-- Only a block or a program has functions among its parts. -/
theorem signatures_parts {v : Sight} (h : v.Holds n) : signatures n.parts = n.opens := by
  by_cases hn : n.IsFunction
  · cases n with
    | function =>
      obtain ⟨_, _, rfl, _⟩ := h.2.2.exists_eq
      rfl
    | _ => exact hn.elim
  have hnone (hscope : ¬ n.IsScope) : signatures n.parts = [] := by
    refine List.eq_nil_iff_forall_not_mem.mpr fun f hf => hscope ?_
    obtain ⟨i, _, _, _, _, hi⟩ := exists_mem_signatures.mp ⟨f, hf, rfl⟩
    obtain ⟨_, _, _, honly⟩ := h.part hn (List.mem_of_getElem? hi)
    exact honly trivial
  cases n with
  | block | program => rfl
  | _ => exact hnone id

/-- Every place of a well-formed program sees what the text shows it. -/
theorem exists_isSeenAt (hroot : root.IsWellFormed) (hat : root.at? x = some n) :
    ∃ v : Sight, v.Holds n ∧ v.IsSeenAt root x := by
  induction x using List.reverseRecOn generalizing n with
  | nil =>
    cases hat
    refine ⟨{}, hroot.holds.1, fun name => ⟨nofun, ?_⟩, fun name => ⟨nofun, ?_⟩⟩
    · rintro ⟨_, _, _, _, hx, _⟩
      simp at hx
    · rintro ⟨_, q, i, j, _, hx, _⟩
      simp at hx
  | append_singleton p j ih =>
    obtain ⟨m, hm, _⟩ := Option.bind_eq_some_iff.mp ((at?_append root p [j]).symm.trans hat)
    rw [at?_step hm] at hat
    obtain ⟨v, hv, hseen⟩ := ih hm
    have hparts : ∃ w : Sight, w.Holds n ∧ w.functions = m.opens ++ v.functions ∧
        ∀ name, name ∈ w.locals ↔ name ∈ m.binds j ∨ ¬ m.IsFunction ∧ name ∈ v.locals := by
      by_cases hfunction : m.IsFunction
      · cases m with
        | function f params returns body loc =>
          obtain rfl := List.mem_singleton.mp (List.mem_of_getElem? hat)
          exact ⟨_, hv.2.2.holds.1, rfl, fun name => by simp [binds, Sight.inside, hfunction]⟩
        | _ => exact hfunction.elim
      · obtain ⟨w, hw, hfunctions, hlocals, _⟩ := hv.getElem?_parts hfunction hat
        exact ⟨w, hw, hfunctions, fun name => by simp [hlocals, hfunction]⟩
    obtain ⟨w, hw, hfunctions, hlocals⟩ := hparts
    refine ⟨w, hw, fun name => ?_, fun name => ?_⟩
    · rw [hlocals, seesVariable_part hm, hseen.locals]
    · rw [hfunctions, ← signatures_parts hv, seesFunction_part hm, ← hseen.functions]
      simp only [List.mem_append, or_and_right, exists_or]

/-- A declaration sees no function of a name that it declares. -/
theorem not_seesFunction_of_declares (hroot : root.IsWellFormed) (hat : root.at? p = some n)
    (hname : name ∈ n.declares) : ¬ ∃ e, root.SeesFunction p name e := by
  obtain ⟨v, hv, hseen⟩ := exists_isSeenAt hroot hat
  rw [← hseen.functions]
  cases n with
  | declaration =>
    rintro ⟨f, hf, heq⟩
    exact (hv.2.2.1 name hname).isNoFunction f hf heq
  | _ => cases hname

/-- Where a node binds a name, no function of the name is seen. -/
theorem not_seesFunction_of_binds (hroot : root.IsWellFormed) (hat : root.at? p = some n) {j : Nat}
    (hname : name ∈ n.binds j) : ¬ ∃ e, root.SeesFunction (p ++ [j]) name e := by
  rw [seesFunction_part hat]
  have hitem {items : List Node} (h : name ∈ items.flatMap declares) :
      ∃ i : Nat, ∃ item, items[i]? = some item ∧ name ∈ item.declares := by
    obtain ⟨item, hmem, hname⟩ := List.mem_flatMap.mp h
    obtain ⟨i, hi⟩ := List.mem_iff_getElem?.mp hmem
    exact ⟨i, item, hi, hname⟩
  cases n with
  | block items loc | program _ items loc =>
    obtain ⟨i, item, hi, hname⟩ := hitem hname
    rw [← seesFunction_part hat i]
    rw [List.getElem?_take] at hi
    split at hi
    · exact not_seesFunction_of_declares hroot ((at?_step hat i).trans hi) hname
    · cases hi
  | loop init condition post body loc =>
    rw [binds] at hname
    split at hname
    · cases hname
    · have hinit : root.at? (p ++ [0]) = some init := at?_step hat 0
      obtain ⟨i, item, hi, hdeclares⟩ := hitem hname
      rw [← seesFunction_part hat 0]
      cases init with
      | block | program =>
        have hfree := not_seesFunction_of_declares hroot ((at?_step hinit i).trans hi) hdeclares
        exact fun h => hfree ((seesFunction_part hinit i).mpr (.inr h))
      | _ => cases hi
  | function f params returns body loc =>
    obtain ⟨v, hv, hseen⟩ := exists_isSeenAt hroot hat
    rw [signatures_parts hv, ← hseen.functions]
    rintro (⟨f, hf, _⟩ | ⟨f, hf, heq⟩)
    · cases hf
    · exact (hv.2.1 name hname).isNoFunction f hf heq
  | _ => cases hname

/-- A node with a function among its parts is no function. -/
theorem not_isFunctionAt_of_function (hroot : root.IsWellFormed) {i : Nat}
    {params returns : List String} {body : Node} {loc : Loc}
    (hat : root.at? (q ++ [i]) = some (.function name params returns body loc)) :
    ¬ root.IsFunctionAt q := by
  rintro ⟨m, hm, hfunction⟩
  obtain ⟨v, hv, _⟩ := exists_isSeenAt hroot hm
  rw [at?_step hm] at hat
  have hmem : ∃ f ∈ signatures m.parts, f.name = name :=
    exists_mem_signatures.mpr ⟨i, _, _, _, _, hat⟩
  rw [signatures_parts hv] at hmem
  cases m with
  | function => simp [opens] at hmem
  | _ => exact hfunction.elim

/-- If a variable and a function of one name are seen, then the block that defines
the function sees the variable. -/
theorem SeesVariable.at_block {d : Place} {i : Nat} (h : root.SeesVariable x name d)
    (hroot : root.IsWellFormed) (hf : root.SeesFunction x name (q ++ [i])) :
    root.SeesVariable q name d ∧ root.IsWithin x q := by
  obtain ⟨n, k, hd, hx, hwithin, hname⟩ := h
  obtain ⟨_, _, j, heq, hqx, hat⟩ := hf
  obtain ⟨rfl, _⟩ := List.append_inj' heq rfl
  have hqx : q <+: x := (List.prefix_append q [j]).trans hqx
  by_cases hdq : d ++ [k] <+: q
  · have hdq' := (List.prefix_append d [k]).trans hdq
    exact ⟨⟨n, k, hd, hdq, hwithin.of_prefix hdq' hqx, hname⟩, hwithin.below hdq' hqx⟩
  -- otherwise the node that binds the name is in the block and sees the function
  · have hqd := (List.prefix_or_prefix_of_prefix hqx hx).resolve_right hdq
    obtain ⟨l, hl⟩ := exists_step_of_prefix hqd fun heq => hdq (heq ▸ List.prefix_refl _)
    exact (not_seesFunction_of_binds hroot hd hname ⟨_, q, i, l, rfl, hl, hat⟩).elim

end Node

namespace Execution

/-- In a program that has a flow graph, no variable is bound where a function of its
name is seen. A name is that of a variable and of a function at once exactly in the
blocks, the functions nested in them apart, that define a function of the name and
see a variable of the name themselves. What a place sees by the text is what the
rules of well-formed programs are about. -/
theorem clashes_iff {program : Node} {g : Graph} (h : Flow.collect program = .ok g) {x : Place}
    {n : Node} (hx : program.at? x = some n) :
    (∃ v : Sight, v.Holds n ∧ v.IsSeenAt program x) ∧
      (∀ name j, name ∈ n.binds j → ¬ ∃ e, program.SeesFunction (x ++ [j]) name e) ∧
      ∀ name, program.Clashes x name ↔
        ∃ q i, program.SeesFunction x name (q ++ [i]) ∧ program.IsWithin x q ∧
          ∃ d, program.SeesVariable q name d := by
  have hprogram := isWellFormed_of_collect h
  refine ⟨Node.exists_isSeenAt hprogram hx,
    fun _ _ => Node.not_seesFunction_of_binds hprogram hx, fun name => ⟨?_, ?_⟩⟩
  · rintro ⟨⟨d, hd⟩, _, hf⟩
    obtain ⟨q, i, _, rfl, _⟩ := id hf
    obtain ⟨hblock, hwithin⟩ := hd.at_block hprogram hf
    exact ⟨q, i, hf, hwithin, d, hblock⟩
  · rintro ⟨q, i, hf, hwithin, d, hd⟩
    obtain ⟨_, _, _, _, _, _, _, _, _, hat⟩ := id hf
    exact ⟨⟨d, hd.inside (Node.not_isFunctionAt_of_function hprogram hat) hwithin⟩, _, hf⟩

/-- A function with the name of a variable around its block, applied to the variable:
`let f := 1 { function f(a) {} f(f) }`. -/
def clashingProgram : Node :=
  .program "clashing" [
    .declaration ["f"] (some (.literal (.integer 1) {})) {},
    .block [
      .function "f" ["a"] [] (.block [] {}) {},
      .expression (.call "f" [.identifier "f" {}] {}) {}] {}] {}

theorem clashes_clashingProgram : clashingProgram.Clashes [1, 1] "f" := by
  have hblock : ¬ clashingProgram.IsFunctionAt [1] := Lexical.not_isFunctionAt rfl id
  have hbound : clashingProgram.SeesVariable [1] "f" [] :=
    ⟨_, 1, rfl, List.prefix_refl _, Lexical.isWithin_step _ [] 1, List.mem_cons_self⟩
  exact ⟨⟨[], hbound.inside hblock (Lexical.isWithin_step _ [1] 1)⟩,
    [1, 0], [1], 0, 1, rfl, List.prefix_refl _, _, _, _, _, rfl⟩

theorem clashes_iff_clashingProgram : ∃ g n v, Flow.collect clashingProgram = .ok g ∧
    clashingProgram.at? [1, 1] = some n ∧ Sight.Holds v n ∧ v.IsSeenAt clashingProgram [1, 1] ∧
      ∃ q i, clashingProgram.SeesFunction [1, 1] "f" (q ++ [i]) ∧
        clashingProgram.IsWithin [1, 1] q ∧ ∃ d, clashingProgram.SeesVariable q "f" d := by
  obtain ⟨g, hg, _⟩ := @Flow.exists_collect clashingProgram (fun _ => true) (by decide +kernel)
  obtain ⟨⟨v, hv, hseen⟩, _, hclashes⟩ := clashes_iff hg (x := [1, 1]) rfl
  exact ⟨g, _, v, hg, rfl, hv, hseen, (hclashes "f").mp clashes_clashingProgram⟩

/-- A name can be that of a variable and of a function at once. -/
theorem exists_clash : ∃ g, Flow.collect clashingProgram = .ok g ∧
    (clashingProgram.at? [1, 1]).isSome = true ∧ clashingProgram.Clashes [1, 1] "f" := by
  obtain ⟨g, hg, _⟩ := @Flow.exists_collect clashingProgram (fun _ => true) (by decide +kernel)
  exact ⟨g, hg, rfl, clashes_clashingProgram⟩

end Execution

end YulTaint
