import Mathlib.Tactic
import YulTaint.Proofs.Program.Lexical

/-!
All functions of a well-formed program have their turns, and all calls are met.
What is met at a place is counted against the tree: a waiting function accounts
for all that is in it until its turn comes. The frames that a call sees are those
of the blocks around it, so a name means the function that one of them defines.
-/

namespace YulTaint

namespace Lexical

/-- What an event accounts for: a call for itself, a function for all that is in it. -/
def Event.weight (x : Place) : Event → Nat
  | .hoist f => f.entry.node.weight f.entry.place x
  | .call c => if x = c.place then 1 else 0

def weigh (es : List Event) (x : Place) : Nat :=
  (es.map (·.weight x)).sum

theorem weigh_append (first rest : List Event) (x : Place) :
    weigh (first ++ rest) x = weigh first x + weigh rest x := by
  rw [weigh, List.map_append, List.sum_append]
  rfl

theorem weigh_entering (visible : List Frame) (frame : Frame) (x : Place) :
    weigh (entering visible frame) x = (frame.map fun e => e.node.weight e.place x).sum := by
  rw [weigh, entering, List.map_map]
  rfl

/-- The functions of a block account for themselves, the other statements for
what is met in them. -/
theorem weigh_parts {visible : List Frame} {x : Place} {ns : List Node}
    (h : ∀ n ∈ ns, ¬ n.IsFunction → ∀ p, weigh (events visible p n) x = n.weight p x)
    (p : Place) (i : Nat) :
    ((entries p i ns).map fun e => e.node.weight e.place x).sum +
      weigh (eventsAll visible p i ns) x = Node.weights p i ns x := by
  induction ns generalizing i with
  | nil => rfl
  | cons n rest ih =>
    obtain ⟨hfirst, hrest⟩ := List.forall_mem_cons.mp h
    have hothers := ih hrest (i + 1)
    rw [eventsAll, weigh_append, Node.weights, ← hothers]
    by_cases hn : n.IsFunction
    · obtain ⟨e, rfl, hplace, hentries⟩ := entries_of_isFunction hn p i rest
      have hnone : weigh [] x = 0 := rfl
      rw [hentries, List.map_cons, List.sum_cons, hplace, events_of_isFunction hn, hnone,
        Nat.zero_add, Nat.add_assoc]
    · rw [entries_of_not_isFunction hn, hfirst hn, Nat.add_left_comm]

theorem weigh_callOf {n : Node} (hn : ¬ n.IsFunction) (visible : List Frame) (p x : Place) :
    weigh (callOf visible p n) x = if x = p then n.isNotable.toNat else 0 := by
  cases n with
  | call name args loc => exact Nat.add_zero _
  | function => exact absurd trivial hn
  | _ => exact (ite_self 0).symm

/-- What is met in a node accounts for everything in it. -/
theorem weigh_events (n : Node) {v : Sight} (h : v.Holds n) (hn : ¬ n.IsFunction)
    (visible : List Frame) (p x : Place) : weigh (events visible p n) x = n.weight p x := by
  induction n using Node.parts_induction generalizing v visible p with
  | step n ih =>
    have hparts (part : Node) (hpart : part ∈ n.parts) (hplain : ¬ part.IsFunction) (q : Place) :
        weigh (events (innerOf visible p n) q part) x = part.weight q x := by
      obtain ⟨w, hw, _⟩ := h.part hn hpart
      exact ih part hpart hw hplain _ q
    rw [events_eq hn, weigh_append, weigh_append, weigh_entering, frameOf_eq h hn,
      weigh_parts hparts, weigh_callOf hn, Node.weight_eq, Nat.add_comm]

/-- What events account for: their own places and the bodies of their functions. -/
theorem weigh_eq (es : List Event) (x : Place) :
    weigh es x = (es.map Event.place).count x +
      ((hoisted es).map fun f => f.entry.body.weight (f.entry.place ++ [0]) x).sum := by
  induction es with
  | nil => rfl
  | cons e rest ih =>
    have hcons : weigh (e :: rest) x = e.weight x + weigh rest x := rfl
    rw [hcons, ih, List.map_cons, List.count_cons]
    cases e with
    | hoist f =>
      have hnode : (Event.hoist f).weight x = (if x = f.entry.place then 1 else 0) +
          (f.entry.body.weight (f.entry.place ++ [0]) x + 0) :=
        Node.weight_eq _ _ _
      have hhoisted : hoisted (.hoist f :: rest) = f :: hoisted rest := rfl
      rw [hnode, hhoisted, List.map_cons, List.sum_cons]
      simp only [Event.place, beq_iff_eq, eq_comm (a := x)]
      omega
    | call c =>
      have hhoisted : hoisted (.call c :: rest) = hoisted rest := rfl
      rw [hhoisted, Event.weight]
      simp only [Event.place, beq_iff_eq, eq_comm (a := x)]
      omega

/-- The frames of a place are those of the blocks around it, and no two of their
functions have the same name. -/
structure Sees (root : Node) (p : Place) (v : Sight) (visible : List Frame) : Prop where
  names : visible.flatten.map (·.name) = v.functions.map (·.name)
  distinct : (v.functions.map (·.name)).Nodup
  mem : ∀ e, e ∈ visible.flatten ↔
    root.at? e.place = some e.node ∧ ∃ q i, e.place = q ++ [i] ∧ q <+: p ∧ q ≠ p

section Sees

variable {root n : Node} {p : Place} {v w : Sight} {visible : List Frame}

theorem prefix_step {q p : Place} (j : Nat) : (q <+: p ++ [j] ∧ q ≠ p ++ [j]) ↔ q <+: p := by
  rw [List.prefix_concat_iff]
  constructor
  · rintro ⟨rfl | h, hne⟩
    · exact absurd rfl hne
    · exact h
  · intro h
    refine ⟨Or.inr h, ?_⟩
    rintro rfl
    simpa using h.length_le

/-- The parts of a node that defines no functions see what it sees. -/
theorem Sees.step (h : Sees root p v visible) (hat : root.at? p = some n)
    (hparts : ∀ part ∈ n.parts, ¬ part.IsFunction) (hw : w.functions = v.functions) (j : Nat) :
    Sees root (p ++ [j]) w visible := by
  refine ⟨hw ▸ h.names, hw ▸ h.distinct, fun e => ?_⟩
  rw [h.mem]
  refine and_congr_right fun he => exists_congr fun q => exists_congr fun i =>
    and_congr_right fun hplace => ?_
  rw [prefix_step]
  refine ⟨And.left, fun hq => ⟨hq, ?_⟩⟩
  rintro rfl
  rw [hplace, Node.at?_step hat] at he
  exact hparts _ (List.mem_of_getElem? he) (isFunction_node e)

/-- The statements of a block see its functions as well. -/
theorem Sees.enter (h : Sees root p v visible) {items : List Node} (hat : root.at? p = some n)
    (hitems : n.parts = items) (hfs : v.Introduces (signatures items))
    (hw : w.functions = signatures items ++ v.functions) (j : Nat) :
    Sees root (p ++ [j]) w (entries p 0 items :: visible) := by
  refine ⟨?_, ?_, fun e => ?_⟩
  · rw [List.flatten_cons, List.map_append, map_name_entries, h.names, hw, List.map_append]
  · rw [hw]
    exact hfs.nodup h.distinct
  · rw [List.flatten_cons, List.mem_append, h.mem]
    constructor
    · rintro (he | ⟨he, q, i, hplace, hq, _⟩)
      · obtain ⟨i, hi, hplace⟩ := mem_entries.mp he
        rw [Nat.zero_add] at hplace
        refine ⟨?_, p, i, hplace, (prefix_step j).mpr (List.prefix_refl p)⟩
        rw [hplace, Node.at?_step hat, hitems, hi]
      · exact ⟨he, q, i, hplace, (prefix_step j).mpr hq⟩
    · rintro ⟨he, q, i, hplace, hq⟩
      by_cases hqp : q = p
      · subst hqp
        rw [hplace, Node.at?_step hat, hitems] at he
        exact Or.inl (mem_entries.mpr ⟨i, he, by rw [Nat.zero_add, hplace]⟩)
      · exact Or.inr ⟨he, q, i, hplace, (prefix_step j).mp hq, hqp⟩

/-- The parts of a node see the functions that the node opens, too. -/
theorem Sees.part (h : Sees root p v visible) (hat : root.at? p = some n) (hv : v.Holds n)
    (hn : ¬ n.IsFunction) {j : Nat} {part : Node} (hpart : n.parts[j]? = some part) :
    ∃ w : Sight, w.Holds part ∧ Sees root (p ++ [j]) w (innerOf visible p n) := by
  obtain ⟨w, hw, hfunctions, _⟩ := hv.part hn (List.mem_of_getElem? hpart)
  refine ⟨w, hw, ?_⟩
  by_cases hscope : n.IsScope
  · cases n with
    | block items loc => exact h.enter hat rfl hv.1 hfunctions j
    | program name items loc => exact h.enter hat rfl hv.1 hfunctions j
    | _ => exact hscope.elim
  · have hplain : n.opens = [] ∧ innerOf visible p n = visible := by
      cases n with
      | block | program => exact absurd trivial hscope
      | _ => exact ⟨rfl, rfl⟩
    rw [hplain.1, List.nil_append] at hfunctions
    rw [hplain.2]
    refine h.step hat (fun other hother hfunction => hscope ?_) hfunctions j
    obtain ⟨_, _, _, honly⟩ := hv.part hn hother
    exact honly hfunction

theorem Sees.resolve_eq_some (h : Sees root p v visible) {name : String} {e : Entry} :
    resolve visible name = some e ↔ e ∈ visible.flatten ∧ e.name = name := by
  have hdistinct : (visible.flatten.map (·.name)).Nodup := h.names ▸ h.distinct
  rw [resolve, ← List.find?_flatten]
  constructor
  · intro hfind
    exact ⟨List.mem_of_find?_eq_some hfind, by simpa using List.find?_some hfind⟩
  · rintro ⟨he, rfl⟩
    cases hfind : visible.flatten.find? (·.name = e.name) with
    | none => simpa using List.find?_eq_none.mp hfind e he
    | some e' =>
      have hname : e'.name = e.name := by simpa using List.find?_some hfind
      rw [List.inj_on_of_nodup_map hdistinct (List.mem_of_find?_eq_some hfind) he hname]

/-- A function that waits for its turn: it stands where it says, and its body
sees the blocks around it. -/
structure Pending.IsPlaced (root : Node) (f : Pending) : Prop where
  node : root.at? f.entry.place = some f.entry.node
  body : ∃ w : Sight, w.IsBlock f.entry.body ∧ Sees root (f.entry.place ++ [0]) w f.visible

/-- A call stands where it says, and refers to the function of its name that is
defined in a block around it. -/
structure Call.IsPlaced (root : Node) (c : Call) : Prop where
  node : ∃ args, root.at? c.place = some (.call c.name args c.loc) ∧ args.length = c.arguments
  target : ∀ d, c.target = some d ↔ root.DefinesAround c.place c.name d

def Event.IsPlaced (root : Node) : Event → Prop
  | .hoist f => f.IsPlaced root
  | .call c => c.IsPlaced root

theorem isPlaced_entering (h : Sees root p v visible) (hat : root.at? p = some n)
    (hv : v.Holds n) (hn : ¬ n.IsFunction) :
    ∀ e ∈ entering visible (frameOf p n), e.IsPlaced root := by
  intro e he
  obtain ⟨entry, hentry, rfl⟩ := List.mem_map.mp he
  rw [frameOf_eq hv hn] at hentry
  obtain ⟨j, hj, hplace⟩ := mem_entries.mp hentry
  rw [Nat.zero_add] at hplace
  obtain ⟨w, hw, hsees⟩ := h.part hat hv hn hj
  obtain ⟨_, _, _, honly⟩ := hv.part hn (List.mem_of_getElem? hj)
  have hinner : innerOf visible p n = frameOf p n :: visible := by
    cases n with
    | block | program => rfl
    | _ => exact (honly (isFunction_node entry)).elim
  have hnode : root.at? entry.place = some entry.node := by
    rw [hplace, Node.at?_step hat, hj]
  obtain ⟨_, _, hbody⟩ := hw
  refine ⟨hnode, _, hbody, ?_⟩
  rw [← hinner]
  rw [← hplace] at hsees
  refine hsees.step (w := w.inside (entry.params ++ entry.returns)) hnode (fun part hpart => ?_)
    rfl 0
  rw [List.mem_singleton.mp hpart]
  exact hbody.holds.2

/-- A call refers to the function that its place sees. -/
theorem isPlaced_callOf (h : Sees root p v visible) (hat : root.at? p = some n)
    (hv : v.Holds n) (hn : ¬ n.IsFunction) : ∀ e ∈ callOf visible p n, e.IsPlaced root := by
  intro e he
  cases n with
  | call name args loc =>
    obtain rfl := List.mem_singleton.mp he
    refine ⟨⟨args, hat, rfl⟩, fun d => ?_⟩
    have hnone (i : Nat) : ¬ ∃ params returns body loc',
        root.at? (p ++ [i]) = some (.function name params returns body loc') := by
      rintro ⟨params, returns, body, loc', hfunction⟩
      rw [Node.at?_step hat] at hfunction
      obtain ⟨_, _, _, honly⟩ := hv.part hn (List.mem_of_getElem? hfunction)
      exact honly trivial
    rw [callAt, Option.map_eq_some_iff]
    constructor
    · rintro ⟨entry, hentry, rfl⟩
      obtain ⟨hmem, rfl⟩ := h.resolve_eq_some.mp hentry
      obtain ⟨hnode, q, i, hplace, hq, _⟩ := (h.mem entry).mp hmem
      exact ⟨q, i, hplace, hq, _, _, _, _, hnode⟩
    · rintro ⟨q, i, rfl, hq, params, returns, body, loc', hnode⟩
      let entry : Entry := { place := q ++ [i], name, params, returns, body, loc := loc' }
      refine ⟨entry, h.resolve_eq_some.mpr ⟨(h.mem entry).mpr ?_, rfl⟩, rfl⟩
      refine ⟨hnode, q, i, rfl, hq, ?_⟩
      rintro rfl
      exact hnone i ⟨_, _, _, _, hnode⟩
  | _ => cases he

/-- Whatever is met stands where it says. -/
theorem isPlaced_of_mem_events (n : Node) {p : Place} {v : Sight} {visible : List Frame}
    (h : Sees root p v visible) (hat : root.at? p = some n) (hv : v.Holds n)
    (hn : ¬ n.IsFunction) : ∀ e ∈ events visible p n, e.IsPlaced root := by
  induction n using Node.parts_induction generalizing p v visible with
  | step n ih =>
    rw [events_eq hn]
    refine List.forall_mem_append.mpr ⟨List.forall_mem_append.mpr ⟨?_, fun e he => ?_⟩, ?_⟩
    · exact isPlaced_entering h hat hv hn
    · obtain ⟨j, part, hpart, he⟩ := mem_eventsAll he
      rw [Nat.zero_add] at he
      by_cases hfunction : part.IsFunction
      · rw [events_of_isFunction hfunction] at he
        cases he
      · obtain ⟨w, hw, hsees⟩ := h.part hat hv hn hpart
        have hat' : root.at? (p ++ [j]) = some part := by rw [Node.at?_step hat, hpart]
        exact ih part (List.mem_of_getElem? hpart) hsees hat' hw hfunction e he
    · exact isPlaced_callOf h hat hv hn

end Sees

section Within

variable {root : Node} {p x : Place}

theorem isWithin_step (root : Node) (p : Place) (j : Nat) : root.IsWithin (p ++ [j]) p := by
  refine ⟨List.prefix_append p [j], fun q hpq hqx hne hne' => ?_⟩
  have hqp := (prefix_step j).mp ⟨hqx, hne'⟩
  exact absurd (hqp.eq_of_length_le hpq.length_le) hne

theorem not_isFunctionAt {n : Node} (hat : root.at? p = some n) (hn : ¬ n.IsFunction) :
    ¬ root.IsFunctionAt p := by
  rintro ⟨m, hm, hfunction⟩
  cases hat.symm.trans hm
  exact hn hfunction

end Within

section Serves

variable {root : Node} {fs order : List Pending}

theorem mem_hoisted {es : List Event} {f : Pending} : f ∈ hoisted es ↔ .hoist f ∈ es := by
  rw [hoisted, List.mem_filterMap]
  constructor
  · rintro ⟨e, he, heq⟩
    cases e with
    | hoist f' => exact Option.some.inj heq ▸ he
    | call => cases heq
  · exact fun he => ⟨_, he, rfl⟩

theorem Pending.IsPlaced.at?_body {f : Pending} (h : f.IsPlaced root) :
    root.at? (f.entry.place ++ [0]) = some f.entry.body := by
  rw [Node.at?_step h.node]
  rfl

theorem Pending.IsPlaced.events {f : Pending} (h : f.IsPlaced root) :
    ∀ e ∈ f.events, e.IsPlaced root := by
  obtain ⟨w, hbody, hsees⟩ := h.body
  exact isPlaced_of_mem_events _ hsees h.at?_body hbody.holds.1 hbody.holds.2

theorem Serves.isPlaced (h : Serves fs order) (hfs : ∀ f ∈ fs, f.IsPlaced root) :
    ∀ f ∈ order, f.IsPlaced root := by
  induction h with
  | nil => exact hfs
  | @next f rest order _ ih =>
    obtain ⟨hf, hrest⟩ := List.forall_mem_cons.mp hfs
    refine List.forall_mem_cons.mpr ⟨hf, ih (List.forall_mem_append.mpr ⟨hrest, ?_⟩)⟩
    exact fun g hg => hf.events _ (mem_hoisted.mp hg)

/-- What waiting functions account for is met in the turns that follow. -/
theorem Serves.count (h : Serves fs order) (hfs : ∀ f ∈ fs, f.IsPlaced root) (x : Place) :
    (fs.map fun f => f.entry.body.weight (f.entry.place ++ [0]) x).sum =
      ((order.flatMap Pending.events).map Event.place).count x := by
  induction h with
  | nil => rfl
  | @next f rest order _ ih =>
    obtain ⟨hf, hrest⟩ := List.forall_mem_cons.mp hfs
    have hnext := ih (List.forall_mem_append.mpr
      ⟨hrest, fun g hg => hf.events _ (mem_hoisted.mp hg)⟩)
    obtain ⟨w, hbody, _⟩ := hf.body
    have hweight : weigh f.events x = f.entry.body.weight (f.entry.place ++ [0]) x :=
      weigh_events _ hbody.holds.1 hbody.holds.2 _ _ _
    rw [List.map_append, List.sum_append] at hnext
    rw [List.map_cons, List.sum_cons, List.flatMap_cons, List.map_append, List.count_append,
      ← hnext, ← hweight, weigh_eq]
    omega

end Serves

theorem hoisted_append (first rest : List Event) :
    hoisted (first ++ rest) = hoisted first ++ hoisted rest :=
  List.filterMap_append

theorem calls_append (first rest : List Event) :
    calls (first ++ rest) = calls first ++ calls rest :=
  List.filterMap_append

section Met

variable {program : Node} {order : List Pending}

end Met

end Lexical

end YulTaint
