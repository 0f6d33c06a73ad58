import Mathlib.Tactic
import YulTaint.Proofs.CallGraph.Representation
import YulTaint.Proofs.Flow.Naming
import YulTaint.Proofs.Sexp.Atom
import YulTaint.Proofs.Taint.Sources

/-!
The names of copies. An embedding puts the callee and its index before a
variable's name, with a hash and a slash. A callee's own name may hold both, but
an index belongs to one embedding; so if declared names hold no slash, a copy's
name can be read from its end, and tells the embeddings that made it. No two
variables of a scope ever have the same name, and the tables of names stay exact.
-/

namespace YulTaint

/-- The last mark of a list tells its two sides. -/
theorem append_cons_inj_of_not_mem {α : Type} {mark : α} {xs xs' ys ys' : List α}
    (hys : mark ∉ ys) (hys' : mark ∉ ys') (h : xs ++ mark :: ys = xs' ++ mark :: ys') :
    xs = xs' ∧ ys = ys' := by
  rcases List.append_eq_append_iff.mp h with ⟨zs, rfl, hzs⟩ | ⟨zs, rfl, hzs⟩
  · cases zs with
    | nil =>
      rw [List.nil_append, List.cons.injEq] at hzs
      exact ⟨(List.append_nil _).symm, hzs.2⟩
    | cons z zs =>
      rw [List.cons_append, List.cons.injEq] at hzs
      exact absurd (hzs.2 ▸ by simp) hys
  · cases zs with
    | nil =>
      rw [List.nil_append, List.cons.injEq] at hzs
      exact ⟨List.append_nil _, hzs.2.symm⟩
    | cons z zs =>
      rw [List.cons_append, List.cons.injEq] at hzs
      exact absurd (hzs.2 ▸ by simp) hys'

theorem Sexp.decimal_injective {j k : Int} (h : decimal j = decimal k) : j = k := by
  have hsplit := congrArg Decimal.splitSign h
  rw [splitSign_decimal, splitSign_decimal, Prod.mk.injEq, decide_eq_decide] at hsplit
  have hsize : j.natAbs = k.natAbs := by
    rw [← ofDigits_toDigits j.natAbs, hsplit.2, ofDigits_toDigits]
  omega

theorem Sexp.not_mem_decimal {c : Char} (hc : c.isDigit = false) (hsign : c ≠ '-') (k : Int) :
    c ∉ decimal k := by
  rw [decimal_eq]
  intro hmem
  rcases List.mem_append.mp hmem with hmem | hmem
  · split at hmem
    · exact hsign (List.mem_singleton.mp hmem)
    · cases hmem
  · rw [Nat.isDigit_of_mem_toDigits (by decide) (by decide) hmem] at hc
    cases hc

open Sexp (decimal)

/-- What an embedding of a callee puts before a name. -/
def embeddingMark (callee : String) (k : Int) : List Char :=
  callee.toList ++ '#' :: (decimal k ++ ['/'])

theorem toList_copyName (callee : String) (k : Int) (name : String) :
    s!"{callee}#{k}/{name}".toList = embeddingMark callee k ++ name.toList := by
  change (callee ++ "#" ++ toString k ++ "/" ++ name).toList = _
  simp [embeddingMark, decimal]

/-- What stands before the name of a variable that was embedded several times, the
first time by the first embedding listed. The callees are given by index. -/
def embeddingMarks (callee : Int → String) : List Int → List Char
  | [] => []
  | k :: later => embeddingMarks callee later ++ embeddingMark (callee k) k

section Marks

variable {callee : Int → String}

theorem embeddingMarks_append (trace : List Int) (k : Int) :
    embeddingMarks callee (trace ++ [k]) =
      embeddingMark (callee k) k ++ embeddingMarks callee trace := by
  induction trace with
  | nil => exact (List.append_nil _).symm
  | cons first later ih =>
    rw [List.cons_append, embeddingMarks, ih, embeddingMarks, List.append_assoc]

theorem embeddingMarks_congr {callee' : Int → String} {trace : List Int}
    (h : ∀ k ∈ trace, callee' k = callee k) :
    embeddingMarks callee' trace = embeddingMarks callee trace := by
  induction trace with
  | nil => rfl
  | cons k later ih =>
    rw [embeddingMarks, embeddingMarks, h k List.mem_cons_self,
      ih fun j hj => h j (List.mem_cons_of_mem _ hj)]

theorem embeddingMarks_cons_append (k : Int) (later : List Int) (base : List Char) :
    embeddingMarks callee (k :: later) ++ base =
      ((embeddingMarks callee later ++ (callee k).toList) ++ '#' :: decimal k) ++ '/' :: base := by
  simp [embeddingMarks, embeddingMark]

/-- A name and the embeddings before it can be told apart. -/
theorem embeddingMarks_injective {trace trace' : List Int} {base base' : List Char}
    (hbase : '/' ∉ base) (hbase' : '/' ∉ base')
    (h : embeddingMarks callee trace ++ base = embeddingMarks callee trace' ++ base') :
    trace = trace' ∧ base = base' := by
  induction trace generalizing trace' base base' with
  | nil =>
    cases trace' with
    | nil => exact ⟨rfl, h⟩
    | cons k later =>
      rw [embeddingMarks_cons_append, embeddingMarks, List.nil_append] at h
      exact absurd (h ▸ by simp) hbase
  | cons k later ih =>
    cases trace' with
    | nil =>
      rw [embeddingMarks_cons_append, embeddingMarks, List.nil_append] at h
      exact absurd (h ▸ by simp) hbase'
    | cons k' later' =>
      have hhash (j : Int) : '#' ∉ decimal j := Sexp.not_mem_decimal rfl (by decide) j
      rw [embeddingMarks_cons_append, embeddingMarks_cons_append] at h
      obtain ⟨hfront, hback⟩ := append_cons_inj_of_not_mem hbase hbase' h
      obtain ⟨hfront, hindex⟩ := append_cons_inj_of_not_mem (hhash k) (hhash k') hfront
      obtain rfl := Sexp.decimal_injective hindex
      have hmarks := List.append_cancel_right hfront
      -- what is left is a name of its own, with nothing after the marks
      obtain ⟨rfl, _⟩ := @ih later' [] [] List.not_mem_nil List.not_mem_nil (by rw [hmarks])
      exact ⟨rfl, hback⟩

end Marks

def Graph.Carries (g : Graph) (sc : String) (id : NodeId) (name : String) : Prop :=
  g.Owns sc id ∧ ∃ n, g.node? id = some n ∧ n.kind = .var ∧ n.name = name

theorem Graph.carries_iff {g : Graph} {sc name : String} {s : Scope} {id : NodeId}
    (hs : g.scope? sc = some s) : g.Carries sc id name ↔
      id ∈ s.nodes ∧ ∃ n, g.node? id = some n ∧ n.kind = .var ∧ n.name = name :=
  and_congr_left fun _ => ⟨fun h => h.mem hs, fun h => ⟨s, hs, h⟩⟩

/-- A named source is what the table of its scope says. -/
theorem namedSource_eq_ok {g : Graph} {sc name : String} {s : Scope} {id : NodeId}
    (hs : g.scope? sc = some s) :
    namedSource g (sc, name) = .ok id ↔ s.lookup? name = some id := by
  unfold namedSource
  rw [hs, Option.bind_some]
  cases s.lookup? name with
  | none => simp
  | some found => simp

namespace Resolver

open Relation (ReflTransGen)

variable {g : Graph} {k : Int} {r r' : Resolver} {ref : SiteRef} {site : CallSite} {c f : Scope}
  {e : Embedding}

/-- The new variables are those of the callee, in order and under marked names. -/
theorem Embeds.names_entries (h : Embeds r ref site c f e r') (hr : r.graph.Coherent)
    (hf : r.graph.scope? site.callee = some f) :
    (r'.graph.entries (List.range' r.graph.size f.nodes.length)).map (·.1) =
      ((r.graph.entries f.nodes).map (·.1)).map fun name =>
        s!"{site.callee}#{e.index}/{name}" := by
  have hzip (ids : List NodeId) (start : Nat) (hids : ∀ id ∈ ids, ∃ n, r.graph.node? id = some n)
      (hcopies : ∀ entry ∈ copyList ids start, ∀ n, r.graph.node? entry.1 = some n →
        r'.graph.node? entry.2 =
          some (n.copied entry.1 ref.scope s!"{site.callee}#{e.index}/{n.name}" e.index)) :
      (r'.graph.entries (List.range' start ids.length)).map (·.1) =
        ((r.graph.entries ids).map (·.1)).map fun name => s!"{site.callee}#{e.index}/{name}" := by
    induction ids generalizing start with
    | nil => rfl
    | cons id rest ih =>
      obtain ⟨n, hn⟩ := hids id List.mem_cons_self
      have hsplit : copyList (id :: rest) start = (id, start) :: copyList rest (start + 1) := rfl
      rw [hsplit] at hcopies
      have hcopy := hcopies (id, start) List.mem_cons_self n hn
      have hrest := ih (start + 1) (fun x hx => hids x (List.mem_cons_of_mem _ hx))
        fun entry hentry => hcopies entry (List.mem_cons_of_mem _ hentry)
      rw [List.length_cons, List.range'_succ]
      cases hkind : n.kind with
      | var =>
        rw [Graph.entries_cons_var hcopy hkind, Graph.entries_cons_var hn hkind]
        simp only [List.map_cons, hrest]
        rfl
      | block =>
        rw [Graph.entries_cons_block hcopy hkind, Graph.entries_cons_block hn hkind, hrest]
  refine hzip f.nodes r.graph.size (fun id hid => ?_) ?_
  · obtain ⟨n, hn, _⟩ := ((hr.scopes _ f hf).owns id).mp hid
    exact ⟨n, hn⟩
  · have hcopies : e.copies = copyList f.nodes r.graph.size := by rw [h.embedding]
    exact hcopies ▸ h.copies

/-- Each variable of a scope has the marks of embeddings made so far before a name
without a slash. -/
def Marked (callee : Int → String) (r : Resolver) : Prop :=
  ∀ id n sc, r.graph.node? id = some n → n.scope = some sc → n.kind = .var →
    ∃ trace base, n.name.toList = embeddingMarks callee trace ++ base ∧ '/' ∉ base ∧
      ∀ j ∈ trace, j < r.nextIndex

section Marked

variable {callee : Int → String}

/-- The marks of the embeddings so far do not depend on the callee of the next. -/
theorem embeddingMarks_update {trace : List Int} {k : Int} (h : ∀ j ∈ trace, j < k)
    (name : String) :
    embeddingMarks (Function.update callee k name) trace = embeddingMarks callee trace :=
  embeddingMarks_congr fun j hj => Function.update_of_ne (h j hj).ne _ _

/-- A name with one more mark. -/
theorem toList_copyName_of_marks {name : String} {trace : List Int} {base : List Char} {k : Int}
    (hname : name.toList = embeddingMarks callee trace ++ base) (htrace : ∀ j ∈ trace, j < k)
    (into : String) :
    s!"{into}#{k}/{name}".toList =
      embeddingMarks (Function.update callee k into) (trace ++ [k]) ++ base := by
  rw [toList_copyName, embeddingMarks_append, Function.update_self, embeddingMarks_update htrace,
    hname, List.append_assoc]

/-- No variable has the name of a copy that the next embedding may make. -/
theorem Marked.name_ne (h : Marked callee r) {a b : NodeId} {m n : FlowNode} {sc sc' : String}
    (hm : r.graph.node? a = some m) (hmscope : m.scope = some sc) (hmkind : m.kind = .var)
    (hn : r.graph.node? b = some n) (hnscope : n.scope = some sc') (hnkind : n.kind = .var)
    (into : String) : m.name ≠ s!"{into}#{r.nextIndex}/{n.name}" := by
  intro heq
  obtain ⟨trace, base, hname, hbase, htrace⟩ := h a m sc hm hmscope hmkind
  obtain ⟨trace', base', hname', hbase', htrace'⟩ := h b n sc' hn hnscope hnkind
  rw [heq, toList_copyName_of_marks hname' htrace', ← embeddingMarks_update htrace into] at hname
  obtain ⟨rfl, _⟩ := embeddingMarks_injective hbase' hbase hname
  exact absurd (htrace r.nextIndex (by simp)) (lt_irrefl _)

/-- Copies get the mark of their embedding before the marks they have. -/
theorem Embeds.marked (h : Embeds r ref site c f e r') (hr : r.graph.Coherent)
    (hf : r.graph.scope? site.callee = some f) (hmarked : Marked callee r) :
    Marked (Function.update callee r.nextIndex site.callee) r' := by
  intro id n sc hn hscope hkind
  rw [h.nextIndex]
  have hgrows {trace : List Int} (htrace : ∀ j ∈ trace, j < r.nextIndex) (j : Int)
      (hj : j ∈ trace) : j < r.nextIndex + 1 :=
    (htrace j hj).trans (Int.lt_succ _)
  rcases h.node?_cases hr hf hn with hold | ⟨original, m, hm, hown, rfl⟩
  · obtain ⟨trace, base, hname, hbase, htrace⟩ := hmarked id n sc hold hscope hkind
    exact ⟨trace, base, by rw [hname, embeddingMarks_update htrace], hbase, hgrows htrace⟩
  · obtain ⟨trace, base, hname, hbase, htrace⟩ := hmarked original m site.callee hm hown hkind
    have hindex : e.index = r.nextIndex := by rw [h.embedding]
    refine ⟨trace ++ [r.nextIndex], base, ?_, hbase, fun j hj => ?_⟩
    · rw [hindex]
      exact toList_copyName_of_marks hname htrace site.callee
    · rcases List.mem_append.mp hj with hj | hj
      · exact hgrows htrace j hj
      · rw [List.mem_singleton.mp hj]
        exact Int.lt_succ _

/-- The names of copies are new, and differ from each other. -/
theorem Embeds.nodup_names (h : Embeds r ref site c f e r') (hr : r.graph.Coherent)
    (hc : r.graph.scope? ref.scope = some c) (hf : r.graph.scope? site.callee = some f)
    (hlabelled : r.graph.Labelled) (hmarked : Marked callee r) :
    ((c.names ++ r'.graph.entries (List.range' r.graph.size f.nodes.length)).map
      (·.1)).Nodup := by
  have hmark : Function.Injective fun name : String => s!"{site.callee}#{e.index}/{name}" := by
    intro name name' heq
    have hchars := congrArg String.toList heq
    simp only [toList_copyName, List.append_cancel_left_eq] at hchars
    exact String.toList_inj.mp hchars
  have hvariable {sc : String} {s : Scope} (hs : r.graph.scope? sc = some s) {name : String}
      (hname : name ∈ s.names.map (·.1)) :
      ∃ id n, r.graph.node? id = some n ∧ n.scope = some sc ∧ n.kind = .var ∧ n.name = name := by
    obtain ⟨⟨_, id⟩, hentry, rfl⟩ := List.mem_map.mp hname
    rw [(hlabelled sc s hs).names] at hentry
    obtain ⟨hid, n, hn, hkind, hname⟩ := Graph.mem_entries.mp hentry
    obtain ⟨n', hn', hscope⟩ := ((hr.scopes sc s hs).owns id).mp hid
    cases hn.symm.trans hn'
    exact ⟨id, n, hn, hscope.trans (congrArg some (Graph.name_of_scope? hs)), hkind, hname⟩
  rw [List.map_append, List.nodup_append, h.names_entries hr hf, ← (hlabelled _ f hf).names]
  refine ⟨(hlabelled _ c hc).distinct, (hlabelled _ f hf).distinct.map hmark, ?_⟩
  rintro name hold _ hnew rfl
  obtain ⟨a, m, hm, hmscope, hmkind, rfl⟩ := hvariable hc hold
  obtain ⟨name, hname, heq⟩ := List.mem_map.mp hnew
  obtain ⟨b, n, hn, hnscope, hnkind, rfl⟩ := hvariable hf hname
  have hindex : e.index = r.nextIndex := by rw [h.embedding]
  rw [hindex] at heq
  exact hmarked.name_ne hm hmscope hmkind hn hnscope hnkind site.callee heq.symm

/-- So the caller's table gets the copies at its end. -/
theorem Embeds.names_eq (h : Embeds r ref site c f e r') (hr : r.graph.Coherent)
    (hc : r.graph.scope? ref.scope = some c) (hf : r.graph.scope? site.callee = some f)
    (hlabelled : r.graph.Labelled) (hmarked : Marked callee r) {c' : Scope}
    (hc' : r'.graph.scope? ref.scope = some c') :
    c'.names = c.names ++ r'.graph.entries (List.range' r.graph.size f.nodes.length) :=
  (h.table c' hc').trans (bindNames_of_nodup (h.nodup_names hr hc hf hlabelled hmarked))

theorem Embeds.labelled (h : Embeds r ref site c f e r') (hr : r.graph.Coherent)
    (hc : r.graph.scope? ref.scope = some c) (hf : r.graph.scope? site.callee = some f)
    (hlabelled : r.graph.Labelled) (hmarked : Marked callee r) : r'.graph.Labelled := by
  refine hlabelled.growth hr h.growth fun s s' hs hs' => ?_
  obtain rfl := Option.some.inj (hc.symm.trans hs)
  have hnames := h.names_eq hr hc hf hlabelled hmarked hs'
  have hadded : r'.graph.size - r.graph.size = f.nodes.length := by
    rw [h.size, Nat.add_sub_cancel_left]
  exact ⟨by rw [hnames, hadded], hnames ▸ h.nodup_names hr hc hf hlabelled hmarked⟩

end Marked

/-- The tables of names stay exact while sites are embedded. -/
theorem labelled_of_run (hg : g.Coherent) (hlabelled : g.Labelled)
    (hslashless : ∀ id n sc, g.node? id = some n → n.scope = some sc → n.kind = .var →
      Slashless n.name)
    (h : ReflTransGen EmbedsSite { graph := g, nextIndex := k } r) :
    r.graph.Coherent ∧ r.graph.Labelled ∧ ∃ callee, Marked callee r := by
  induction h with
  | refl =>
    refine ⟨hg, hlabelled, fun _ => "", fun id n sc hn hscope hkind => ?_⟩
    exact ⟨[], n.name.toList, rfl, hslashless id n sc hn hscope hkind,
      List.forall_mem_nil _⟩
  | tail _ hstep ih =>
    obtain ⟨hr, hlabelled', callee, hmarked⟩ := ih
    obtain ⟨_, _, _, _, _, hc, hf, hembeds⟩ := hstep.embeds hr
    exact ⟨hembeds.coherent, hembeds.labelled hr hc hf hlabelled' hmarked, _,
      hembeds.marked hr hf hmarked⟩

/-- A step resolves a site of the graph, or finds none open. -/
theorem embedsSite_of_stepsTo (hg : g.Collected)
    (h : StepsTo { graph := g, nextIndex := k } r) :
    ReflTransGen EmbedsSite { graph := g, nextIndex := k } r := by
  induction h with
  | refl => exact .refl
  | tail hsteps hstep ih =>
    obtain ⟨more, hstep⟩ := hstep
    obtain ⟨hr, _⟩ := Inlining.run (advances_of_stepsTo hg hsteps) hg
    rcases embedsReady_of_step hr.coherent.names hstep with ⟨_, rfl⟩ | hready
    · exact ih
    · exact ih.tail hready.embedsSite

/-- Unless a declared name holds a slash, names stay unique through every step of
resolution: no two variables of a scope have the same name, the scope's table
lists each variable under its name and nothing else, and whoever looks a name up
finds the variable that carries it. -/
theorem names_exact_of_stepsTo {program : Node}
    (hnames : ∀ name ∈ program.variables, Slashless name) (hg : Flow.collect program = .ok g)
    (h : StepsTo { graph := g, nextIndex := k } r) {sc : String} {s : Scope}
    (hs : r.graph.scope? sc = some s) :
    (∀ a b name, r.graph.Carries sc a name → r.graph.Carries sc b name → a = b) ∧
      (s.names.map (·.1)).Nodup ∧
      (∀ name id, (name, id) ∈ s.names ↔ r.graph.Carries sc id name) ∧
      (∀ name id, s.lookup? name = some id ↔ r.graph.Carries sc id name) ∧
      ∀ name id, namedSource r.graph (sc, name) = .ok id ↔ r.graph.Carries sc id name := by
  have hcollected := Flow.collected_of_collect hg
  obtain ⟨_, hlabelled, _⟩ := labelled_of_run hcollected.coherent (Flow.labelled_of_collect hg)
    (fun _ _ _ hn hscope hkind => Flow.slashless_of_collect hnames hg hn hscope hkind)
    (embedsSite_of_stepsTo hcollected h)
  have hlabels := hlabelled sc s hs
  have hlookup (name : String) (id : NodeId) :
      s.lookup? name = some id ↔ r.graph.Carries sc id name := by
    rw [hlabels.lookup?_iff, Graph.carries_iff hs]
  refine ⟨fun a b name ha hb => ?_, hlabels.distinct, fun name id => ?_, hlookup,
    fun name id => ?_⟩
  · have ha' := (hlookup name a).mpr ha
    exact Option.some.inj (ha'.symm.trans ((hlookup name b).mpr hb))
  · rw [← hlookup, Scope.lookup?, lookup_eq_some_iff hlabels.distinct]
  · rw [← hlookup, namedSource_eq_ok hs]

/-- Functions and variables whose names look like those of copies. -/
def lookalikeProgram : Node :=
  .program "lookalike" [
    .function "f" [] ["r"] (.block [.declaration ["f#8"] none {}] {}) {},
    .function "f#7/r#1" ["p"] ["q"] (.block [
      .assignment ["q"] (.call "f" [] {}) {},
      .assignment ["p"] (.call "f" [] {}) {}] {}) {},
    .declaration ["r"] (some (.call "f" [] {})) {},
    .declaration ["f#7"] (some (.call "f#7/r#1" [.identifier "r" {}] {})) {}] {}

theorem steps_lookalikeProgram : (Flow.collect lookalikeProgram).toOption.any fun g =>
    (stepTimes 4 { graph := g, nextIndex := 7 }).any fun r =>
      (r.graph.scope? mainScope).any fun s => decide (s.names.length = 10) := by
  decide +kernel

theorem names_exact_lookalikeProgram :
    (∀ name ∈ lookalikeProgram.variables, Slashless name) ∧
    ∃ g r s, Flow.collect lookalikeProgram = .ok g ∧
      StepsTo { graph := g, nextIndex := 7 } r ∧ r.graph.scope? mainScope = some s ∧
      s.names.length = 10 ∧ (s.names.map (·.1)).Nodup ∧
      ∀ name id, s.lookup? name = some id ↔ r.graph.Carries mainScope id name := by
  have hnames : ∀ name ∈ lookalikeProgram.variables, Slashless name := by decide
  obtain ⟨g, hg, hsteps⟩ := Flow.exists_collect steps_lookalikeProgram
  obtain ⟨r, hr, hscope⟩ := (Option.any_eq_true _ _).mp hsteps
  obtain ⟨s, hs, hlength⟩ := (Option.any_eq_true _ _).mp hscope
  have hrun := stepsTo_of_stepTimes hr
  obtain ⟨_, hdistinct, _, hlookup, _⟩ := names_exact_of_stepsTo hnames hg hrun hs
  exact ⟨hnames, g, r, s, hg, hrun, hs, of_decide_eq_true hlength, hdistinct, hlookup⟩

end Resolver

end YulTaint
