import Mathlib.Tactic
import YulTaint.Proofs.Flow.Renamed

/-!
The names of a program's variables. A program uses only variables that it
declares, and the walk calls a variable as the program declares it, or `lit` or
`expr`, with or without a number after a hash. So a program that declares no name
with a slash gives no variable such a name, and no two variables of a scope the
same one.
-/

namespace YulTaint

mutual

def Node.variables : Node → List String
  | .block items _ | .program _ items _ => variablesOf items
  | .declaration names _ _ => names
  | .branch _ body _ | .caseArm _ body _ => body.variables
  | .switch _ arms fallback _ => variablesOf arms ++ variablesOfOption fallback
  | .loop init _ post body _ => init.variables ++ post.variables ++ body.variables
  | .function _ params returns body _ => params ++ returns ++ body.variables
  | _ => []

def variablesOf : List Node → List String
  | [] => []
  | item :: rest => item.variables ++ variablesOf rest

def variablesOfOption : Option Node → List String
  | none => []
  | some body => body.variables

end

theorem Node.declares_subset (n : Node) : n.declares ⊆ n.variables := by
  cases n with
  | declaration => exact List.Subset.refl _
  | _ => exact List.nil_subset _

theorem declares_subset_variablesOf (items : List Node) :
    items.flatMap Node.declares ⊆ variablesOf items := by
  induction items with
  | nil => exact List.nil_subset _
  | cons item rest ih =>
    exact List.append_subset.mpr
      ⟨List.subset_append_of_subset_left _ item.declares_subset,
        List.subset_append_of_subset_right _ ih⟩

theorem Node.declares_items_subset (n : Node) :
    n.items.flatMap Node.declares ⊆ n.variables := by
  cases n with
  | block items | program _ items => exact declares_subset_variablesOf items
  | _ => exact List.nil_subset _

namespace Sight

variable {v : Sight} {x : String} {names : List String}

mutual

theorem IsOperand.mem_locals (e : Node) (h : v.IsOperand e) (hx : .variable x ∈ e.mentions) :
    x ∈ v.locals := by
  cases e with
  | identifier name loc =>
    cases List.mem_singleton.mp hx
    exact h
  | call name args loc => exact AreOperands.mem_locals args h.2 (by simpa [Node.mentions] using hx)
  | literal => cases hx
  | _ => exact h.elim

theorem AreOperands.mem_locals (es : List Node) (h : v.AreOperands es)
    (hx : .variable x ∈ mentionsOf es) : x ∈ v.locals := by
  cases es with
  | nil => cases hx
  | cons e rest =>
    rcases List.mem_append.mp hx with hx | hx
    · exact IsOperand.mem_locals e h.1 hx
    · exact AreOperands.mem_locals rest h.2 hx

end

theorem Gives.mem_locals {count : Nat} {value : Node} (h : v.Gives count value)
    (hx : .variable x ∈ value.mentions) : x ∈ v.locals := by
  cases value with
  | call name args loc => exact AreOperands.mem_locals args h.2 (by simpa [Node.mentions] using hx)
  | _ => exact IsOperand.mem_locals _ h.2 hx

theorem locals_declaring_subset (hv : v.locals ⊆ names) {declared : List String}
    (hdeclared : declared ⊆ names) : (v.declaring declared).locals ⊆ names :=
  List.append_subset.mpr ⟨hdeclared, hv⟩

mutual

/-- The variables of a statement are those seen around it and its own. -/
theorem IsStatement.mem_names (n : Node) {v : Sight} (h : v.IsStatement n)
    (hv : v.locals ⊆ names) (hn : n.variables ⊆ names) (hx : .variable x ∈ n.mentions) :
    x ∈ names := by
  cases n with
  | declaration declared value loc =>
    rcases List.mem_append.mp hx with hx | hx
    · obtain ⟨_, hy, heq⟩ := List.mem_map.mp hx
      cases heq
      exact hn hy
    · cases value with
      | none => cases hx
      | some value => exact hv ((h.2.2.2 value rfl).mem_locals hx)
  | assignment assigned value loc =>
    rcases List.mem_append.mp hx with hx | hx
    · obtain ⟨_, hy, heq⟩ := List.mem_map.mp hx
      cases heq
      exact hv (h.2.2.1 x hy)
    · exact hv (h.2.2.2.mem_locals hx)
  | expression value loc => exact hv (Gives.mem_locals h hx)
  | branch condition body loc =>
    rcases List.mem_append.mp hx with hx | hx
    · exact hv (IsOperand.mem_locals condition h.1 hx)
    · exact IsBlock.mem_names body h.2 hv hn hx
  | switch selector arms fallback loc =>
    obtain ⟨_, hselector, ⟨words, hwords, _⟩, harms, hfallback⟩ := h
    obtain ⟨hn, hn'⟩ := List.append_subset.mp hn
    rcases List.mem_append.mp hx with hx | hx
    · rcases List.mem_append.mp hx with hx | hx
      · exact hv (IsOperand.mem_locals selector hselector hx)
      · exact AreArms.mem_names arms hwords harms hv hn hx
    · exact IsFallback.mem_names fallback hfallback hv hn' hx
  | loop init condition post body loc =>
    obtain ⟨hinit, hcondition, hbody, hpost⟩ := h
    obtain ⟨hn, hnbody⟩ := List.append_subset.mp hn
    obtain ⟨hninit, hnpost⟩ := List.append_subset.mp hn
    have hv' := locals_declaring_subset hv
      (List.Subset.trans init.declares_items_subset hninit)
    simp only [Node.mentions, List.mem_append] at hx
    rcases hx with ((hx | hx) | hx) | hx
    · exact IsInit.mem_names init hinit hv hninit hx
    · exact hv' (IsOperand.mem_locals condition hcondition hx)
    · exact IsBlock.mem_names post hpost hv' hnpost hx
    · exact IsBlock.mem_names body hbody hv' hnbody hx
  | block items loc => exact AreStatements.mem_names items h.2 hv hn hx
  | function name params returns body loc =>
    obtain ⟨hnparams, hnbody⟩ := List.append_subset.mp hn
    simp only [Node.mentions, List.cons_append, List.mem_cons, List.mem_append, List.mem_map] at hx
    rcases hx with hx | ⟨_, hy, heq⟩ | hx
    · cases hx
    · cases heq
      exact hnparams (List.mem_append.mpr hy)
    · exact IsBlock.mem_names body h.2.2 hnparams hnbody hx
  | breakOut | continueOn | leave => cases hx
  | _ => exact h.elim

theorem AreStatements.mem_names (ns : List Node) {v : Sight} (h : v.AreStatements ns)
    (hv : v.locals ⊆ names) (hns : variablesOf ns ⊆ names) (hx : .variable x ∈ mentionsOf ns) :
    x ∈ names := by
  cases ns with
  | nil => cases hx
  | cons n rest =>
    obtain ⟨hn, hrest⟩ := List.append_subset.mp hns
    rcases List.mem_append.mp hx with hx | hx
    · exact IsStatement.mem_names n h.1 hv hn hx
    · exact AreStatements.mem_names rest h.2
        (locals_declaring_subset hv (List.Subset.trans n.declares_subset hn)) hrest hx

theorem IsBlock.mem_names (n : Node) {v : Sight} (h : v.IsBlock n) (hv : v.locals ⊆ names)
    (hn : n.variables ⊆ names) (hx : .variable x ∈ n.mentions) : x ∈ names := by
  cases n with
  | block items loc => exact AreStatements.mem_names items h.2 hv hn hx
  | _ => exact h.elim

theorem IsInit.mem_names (n : Node) {v : Sight} (h : v.IsInit n) (hv : v.locals ⊆ names)
    (hn : n.variables ⊆ names) (hx : .variable x ∈ n.mentions) : x ∈ names := by
  cases n with
  | block items | program _ items => exact AreStatements.mem_names items h.2 hv hn hx
  | _ => exact h.elim

theorem AreArms.mem_names (arms : List Node) {v : Sight} {words : List Nat}
    (hwords : arms.map Node.word? = words.map some) (h : v.AreArms arms) (hv : v.locals ⊆ names)
    (harms : variablesOf arms ⊆ names) (hx : .variable x ∈ mentionsOf arms) :
    x ∈ names := by
  cases arms with
  | nil => cases hx
  | cons arm rest =>
    obtain ⟨hn, hrest⟩ := List.append_subset.mp harms
    cases words with
    | nil => cases hwords
    | cons word words =>
      obtain ⟨hword, hothers⟩ := List.cons.inj hwords
      cases arm with
      | caseArm value body loc =>
        simp only [mentionsOf, Node.mentions, List.mem_append] at hx
        rcases hx with (hx | hx) | hx
        · cases value with
          | literal => cases hx
          | _ => cases hword
        · exact IsBlock.mem_names body h.1 hv hn hx
        · exact AreArms.mem_names rest hothers h.2 hv hrest hx
      | _ => exact h.elim

theorem IsFallback.mem_names (n? : Option Node) {v : Sight} (h : v.IsFallback n?)
    (hv : v.locals ⊆ names) (hn : variablesOfOption n? ⊆ names)
    (hx : .variable x ∈ mentionsOfOption n?) : x ∈ names := by
  cases n? with
  | none => cases hx
  | some n => exact IsBlock.mem_names n h hv hn hx

end

end Sight

/-- A well-formed program uses the variables that it declares. -/
theorem Node.IsWellFormed.mem_variables {program : Node} (h : program.IsWellFormed) {x : String}
    (hx : .variable x ∈ program.mentions) : x ∈ program.variables := by
  cases program with
  | program name items loc =>
    exact Sight.AreStatements.mem_names items h.2 (List.nil_subset _) (List.Subset.refl _) hx
  | _ => exact h.elim

def Slashless (name : String) : Prop :=
  '/' ∉ name.toList

instance (name : String) : Decidable (Slashless name) :=
  inferInstanceAs (Decidable ('/' ∉ name.toList))

theorem toList_suffixed (base : String) (k : Nat) :
    s!"{base}#{k}".toList = base.toList ++ '#' :: Nat.toDigits 10 k := by
  have happend : s!"{base}#{k}" = base ++ "#" ++ k.repr := rfl
  rw [happend, String.toList_append, String.toList_append, Nat.toList_repr, List.append_assoc]
  rfl

theorem slash_not_mem_suffix (k : Nat) : '/' ∉ '#' :: Nat.toDigits 10 k := by
  rw [List.mem_cons, not_or]
  refine ⟨by decide, fun hmem => ?_⟩
  have hdigit := Nat.isDigit_of_mem_toDigits (by decide) (by decide) hmem
  cases hdigit

/-- Finishing keeps names, and the tables that list them. -/
theorem Graph.Finishing.labelled {g g' : Graph} (h : Finishing g g') (hg : g.Coherent)
    (hlabelled : g.Labelled) : g'.Labelled := by
  intro name s' hs'
  obtain ⟨s, hs⟩ := mem_scopeNames.mp (h.scopeNames ▸ mem_scopeNames.mpr ⟨s', hs'⟩)
  obtain ⟨t, ht, hcore⟩ := h.scope hs
  cases hs'.symm.trans ht
  have hnames : s'.core.names = s.core.names := congrArg Scope.names hcore
  have hnodes : s'.core.nodes = s.core.nodes := congrArg Scope.nodes hcore
  have hentries : g'.entries s.nodes = g.entries s.nodes := by
    refine entries_congr fun id hid => ?_
    obtain ⟨n, hn, _⟩ := ((hg.scopes name s hs).owns id).mp hid
    obtain ⟨n', hn', heq⟩ := h.old id n hn
    have hkind : n'.core.kind = n.core.kind := congrArg FlowNode.kind heq
    have hname : n'.core.name = n.core.name := congrArg FlowNode.name heq
    rw [hn, hn', Option.map_some, Option.map_some]
    exact congrArg some (Prod.ext hkind hname)
  obtain ⟨hlisted, hdistinct⟩ := hlabelled name s hs
  constructor
  · calc
      s'.names = s.names := hnames
      _ = g.entries s.nodes := hlisted
      _ = g'.entries s.nodes := hentries.symm
      _ = g'.entries s'.nodes := congrArg g'.entries hnodes.symm
  · exact (congrArg (List.map (·.1)) hnames) ▸ hdistinct

namespace Flow

/-- What the walk adds to a name has no slash. -/
theorem exists_tail_uniqueName (g : Graph) (sc name : String) :
    ∃ tail, (uniqueName g sc name).toList = name.toList ++ tail ∧ '/' ∉ tail := by
  unfold uniqueName
  split
  · exact ⟨_, toList_suffixed name _, slash_not_mem_suffix _⟩
  · exact ⟨[], (List.append_nil _).symm, List.not_mem_nil⟩

/-- A renaming that changes just the names with a slash. -/
def markSlash (name : String) : String :=
  if Slashless name then name else name ++ "/"

theorem markSlash_injective : Function.Injective markSlash := by
  have hslash (name : String) : ¬ Slashless (name ++ "/") := by simp [Slashless]
  intro a b h
  unfold markSlash at h
  split at h <;> split at h
  · exact h
  · rename_i ha _
    exact absurd (h ▸ ha) (hslash b)
  · rename_i _ hb
    exact absurd (h ▸ hb) (hslash a)
  · simpa [← String.toList_inj] using h

/-- A new name that the marking leaves alone has no slash. -/
theorem slashless_of_markSlash {g g' : Graph} {sc name : String}
    (h : uniqueName g sc name = uniqueName g' sc (markSlash name)) :
    Slashless (uniqueName g sc name) := by
  obtain ⟨tail, htail, hslash⟩ := exists_tail_uniqueName g sc name
  by_cases hname : Slashless name
  · rw [Slashless, htail, List.mem_append, not_or]
    exact ⟨hname, hslash⟩
  · obtain ⟨tail', htail', _⟩ := exists_tail_uniqueName g' sc (name ++ "/")
    rw [markSlash, if_neg hname] at h
    rw [h, htail', String.toList_append, List.append_assoc] at htail
    obtain rfl := List.append_cancel_left htail
    exact absurd List.mem_cons_self hslash

/-- Arenas in which the same variable never has the same name with a slash. -/
structure SlashesDiffer (nodes nodes' : Array FlowNode) : Prop where
  size : nodes'.size = nodes.size
  slashless : ∀ (id : NodeId) (n : FlowNode), nodes[id]? = some n → nodes'[id]? = some n →
    n.kind = .var → Slashless n.name

theorem SlashesDiffer.push {nodes nodes' : Array FlowNode} (h : SlashesDiffer nodes nodes')
    {n n' : FlowNode} (hn : n = n' → n.kind = .var → Slashless n.name) :
    SlashesDiffer (nodes.push n) (nodes'.push n') := by
  refine ⟨by simp [h.size], fun id m hm hm' => ?_⟩
  rw [Array.getElem?_push, h.size] at hm'
  rw [Array.getElem?_push] at hm
  split at hm
  · rw [if_pos ‹_›] at hm'
    cases hm
    exact hn (Option.some.inj hm').symm
  · rw [if_neg ‹_›] at hm'
    exact h.slashless id m hm hm'

def Mirror.marking : Mirror :=
  { rename := markSlash, move := id, extra := [],
    Alike := fun g _ g' _ => SlashesDiffer g.nodes g'.nodes }

theorem Mirror.isKept_marking : Mirror.marking.IsKept where
  rename := markSlash_injective
  move := Function.injective_id
  size := fun h => h.size
  scope := fun h _ _ => h.push fun _ hkind => nomatch hkind
  temporary := by
    intro s t ctx h _ stem hstem loc
    have hslashless : ∀ stem ∈ ["lit", "expr"], Slashless stem := by decide
    refine h.push fun _ _ => ?_
    rw [Slashless, toList_suffixed, List.mem_append, not_or]
    exact ⟨hslashless stem hstem, slash_not_mem_suffix _⟩
  declared := fun h _ _ _ => h.push fun heq _ =>
    slashless_of_markSlash (congrArg FlowNode.name heq)
  block := fun h _ _ _ => h.push fun _ hkind => nomatch hkind
  edge := fun h _ _ _ => h
  site := fun h _ _ => h
  param := fun h _ _ => h
  result := fun h _ _ => h
  restart := fun h => h

/-- A renaming that leaves a program as it is leaves the walk as it is, names
included. -/
theorem slashless_of_walk {program : Node} (hnames : ∀ name ∈ program.variables, Slashless name)
    {rs : List ScopeRecord} {s : WalkState}
    (hwalk : walkProgram program { graph := {} } = .ok rs s) {x : NodeId} {n : FlowNode}
    (hn : s.graph.node? x = some n) (hkind : n.kind = .var) : Slashless n.name := by
  have hsame : program.rename markSlash = program := by
    have hfixed (name : String) (hname : .variable name ∈ program.mentions) :
        markSlash name = id name :=
      if_pos (hnames name ((isWellFormed_of_walkProgram hwalk).mem_variables hname))
    rw [program.rename_congr hfixed, program.rename_id]
  have hwalk' : walkProgram (program.rename Mirror.marking.rename) { graph := {} } = .ok rs s := by
    rw [← hwalk]
    exact congrArg (walkProgram · _) hsame
  have hstart : SlashesDiffer #[] #[] := ⟨rfl, fun _ _ hm => by simp at hm⟩
  obtain ⟨hdiffer, _⟩ := Mirror.isKept_marking.walkProgram_mirror rfl hstart hwalk hwalk'
  exact hdiffer.slashless x n hn hn hkind

section Collected

variable {program : Node} {g : Graph}

theorem labelled_of_collect (h : collect program = .ok g) : g.Labelled := by
  obtain ⟨rs, s, hwalk, rfl⟩ := collect_eq_ok h
  obtain ⟨done, hstands, _, _, hrecords⟩ := walkProgram_spec hwalk
  exact (finishAll_finishing hstands.walked.coherent rs hrecords).labelled
    hstands.walked.coherent hstands.walked.labelled

/-- The variables of a scope, as opposed to shared memory words, have names
without a slash if the program declares no other. -/
theorem slashless_of_collect (hnames : ∀ name ∈ program.variables, Slashless name)
    (h : collect program = .ok g) {id : NodeId} {n : FlowNode} {sc : String}
    (hn : g.node? id = some n) (hscope : n.scope = some sc) (hkind : n.kind = .var) :
    Slashless n.name := by
  obtain ⟨rs, s, hwalk, rfl⟩ := collect_eq_ok h
  obtain ⟨done, hstands, _, _, hrecords⟩ := walkProgram_spec hwalk
  rcases (finishAll_finishing hstands.walked.coherent rs hrecords).new id n hn with
    ⟨m, hm, hcore⟩ | hshared
  · have hkind' : n.core.kind = m.core.kind := congrArg FlowNode.kind hcore
    have hname : n.core.name = m.core.name := congrArg FlowNode.name hcore
    have hslashless := slashless_of_walk hnames hwalk hm (hkind'.symm.trans hkind)
    exact hname.symm ▸ hslashless
  · have hnone : n.core.scope = none := congrArg FlowNode.scope hshared
    cases hnone.symm.trans hscope

end Collected

end Flow

end YulTaint
