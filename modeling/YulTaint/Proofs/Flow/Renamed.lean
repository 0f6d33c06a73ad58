import Mathlib.Tactic
import YulTaint.Proofs.Flow.Acceptance
import YulTaint.Proofs.Flow.Mirror
import YulTaint.Proofs.Flow.Nameless

/-!
The flow graph of a program whose variables have other names. It is accepted if
the program is, and the two graphs differ in names only.
-/

namespace YulTaint

def Node.variableNames (n : Node) : List String :=
  n.mentions.filterMap fun
    | .variable name => some name
    | _ => none

def Node.functionNames (n : Node) : List String :=
  n.mentions.filterMap fun
    | .function name => some name
    | _ => none

theorem Node.mem_variableNames {n : Node} {name : String} :
    name ∈ n.variableNames ↔ .variable name ∈ n.mentions := by
  rw [variableNames, List.mem_filterMap]
  constructor
  · rintro ⟨m, hm, heq⟩
    cases m <;> cases heq
    exact hm
  · exact fun h => ⟨_, h, rfl⟩

theorem Node.mem_functionNames {n : Node} {name : String} :
    name ∈ n.functionNames ↔ .function name ∈ n.mentions := by
  rw [functionNames, List.mem_filterMap]
  constructor
  · rintro ⟨m, hm, heq⟩
    cases m <;> cases heq
    exact hm
  · exact fun h => ⟨_, h, rfl⟩

namespace Flow

/-- The second graph differs in names only. -/
def Mirror.renaming (ρ : String → String) : Mirror :=
  { rename := ρ, move := id, extra := [], Alike := fun g _ g' _ => g.nameless = g'.nameless }

theorem Mirror.isKept_renaming {ρ : String → String} (hρ : Function.Injective ρ) :
    (Mirror.renaming ρ).IsKept where
  rename := hρ
  move := Function.injective_id
  size := fun h => (Graph.size_congr h).symm
  scope := fun h _ loc => Graph.addScope_congr h _ loc
  temporary := fun h _ _ _ loc => Graph.addVariable_congr h _ _ _ loc
  declared := fun h _ _ loc => Graph.addVariable_congr h _ _ _ loc
  block := fun h _ _ loc => Graph.addBlock_congr h _ _ _ loc
  edge := fun h _ a b => Graph.addEdge_congr h _ a b
  site := fun h site _ => by
    have hsame : (Mirror.renaming ρ).site site = site :=
      CallSite.move_eq (fun _ _ => rfl) (fun _ _ => rfl) rfl
    rw [hsame]
    exact Graph.addSite_congr h _
  param := fun h _ id => Graph.addParam_congr h _ id
  result := fun h _ id => Graph.addReturn_congr h _ id
  restart := fun h => h

/-- The walk of the renamed program goes through and mirrors the first. -/
theorem walkProgram_rename {program : Node} {ρ : String → String} {functions : List String}
    (hρ : Function.Injective ρ) (hspares : Spares ρ functions program.mentions)
    {rs : List ScopeRecord} {t : WalkState}
    (hwalk : walkProgram program { graph := {} } = .ok rs t) :
    ∃ rs' t', walkProgram (program.rename ρ) { graph := {} } = .ok rs' t' := by
  have hsettles := walkProgram_settles (program.rename ρ)
  unfold Settles at hsettles
  split at hsettles
  · rename_i rs' t' hwalk'
    exact ⟨rs', t', hwalk'⟩
  · exact absurd ((isWellFormed_of_walkProgram hwalk).rename hρ hspares) hsettles.1

/-- The walks of a program under both names end alike and record the same. -/
theorem Mirror.IsKept.walkProgram_mirror {M : Mirror} (hM : M.IsKept) (hextra : M.extra = [])
    (hstart : M.Alike {} 0 {} 0) {program : Node} {rs rs' : List ScopeRecord} {t t' : WalkState}
    (hwalk : walkProgram program { graph := {} } = .ok rs t)
    (hwalk' : walkProgram (program.rename M.rename) { graph := {} } = .ok rs' t') :
    M.Alike t.graph t.counter t'.graph t'.counter ∧ rs' = rs.map M.record := by
  have hhidden : M.hidden = [] := by simp [hidden, hextra]
  have hfresh (s : WalkState) : ∀ name ∈ M.hidden, name ∉ s.scopeNames := by simp [hhidden]
  cases program with
  | program name items loc =>
    obtain ⟨main, u, hmain, h⟩ := bind_eq_ok hwalk
    obtain ⟨rest, v, hrest, h⟩ := bind_eq_ok h
    obtain ⟨rfl, rfl⟩ := pure_eq_ok h
    obtain ⟨main', u', hmain', h'⟩ := bind_eq_ok hwalk'
    obtain ⟨rest', v', hrest', h'⟩ := bind_eq_ok h'
    obtain ⟨rfl, rfl⟩ := pure_eq_ok h'
    have hstates : M.States [] [] { graph := {} } { graph := {} } :=
      ⟨hstart, ⟨[], rfl, rfl, List.forall_mem_nil _⟩, by simp [hhidden], rfl, rfl⟩
    obtain ⟨hu, rfl⟩ := (mimics_walkMain hM hextra items).sim hstates hmain hmain' (hfresh u)
    rw [functionCounts_renameAll] at hrest'
    obtain ⟨ht, rfl⟩ := walkPending_mirror hM _ hu hrest hrest' (hfresh v)
    exact ⟨ht.graph, rfl⟩
  | _ => cases hwalk

/-- A program that is accepted is accepted under other names, with the same graph
but for the names. -/
theorem collect_rename {program : Node} {ρ : String → String} {functions : List String}
    (hρ : Function.Injective ρ) (hspares : Spares ρ functions program.mentions) {g : Graph}
    (hg : collect program = .ok g) :
    ∃ g', collect (program.rename ρ) = .ok g' ∧ g.nameless = g'.nameless := by
  obtain ⟨rs, t, hwalk, rfl⟩ := collect_eq_ok hg
  obtain ⟨rs', t', hwalk'⟩ := walkProgram_rename hρ hspares hwalk
  obtain ⟨halike, hrecords⟩ :=
    (Mirror.isKept_renaming hρ).walkProgram_mirror rfl rfl hwalk hwalk'
  obtain rfl : rs' = rs := by rw [hrecords, map_eq_self fun r _ => r.move_id]
  refine ⟨rs'.foldl finishScope t'.graph, ?_, ?_⟩
  · simp only [collect, collectInto, hwalk']
  · exact Graph.foldl_congr (fun r hg => finishScope_congr hg r) rs' halike

end Flow

end YulTaint
