import Mathlib.Tactic
import YulTaint.Proofs.Execution.Laid
import YulTaint.Proofs.Execution.Scoping
import YulTaint.Proofs.Flow.Grounded

/-!
How the code of a function defines its variables. Parameters and the results of
calls may hold anything, and every application defines its value. Since code
reads a variable only where it has a value, a definition uses variables that are
defined before it; so the solved definitions leave nothing undefined.
-/

namespace YulTaint.Execution

open YulTaint.Flow

/-- Whatever a layout brings into a variable from outside the scope's own
assignments has its definition. -/
structure Layout.Accounts (l : Layout) : Prop where
  params : ∀ id ∈ l.params, .arbitrary id ∈ l.definitions
  results : ∀ site ∈ l.sites, ∀ id ∈ site.results, .arbitrary id ∈ l.definitions
  applications : ∀ a ∈ l.applications, .application a.node a.name a.operands ∈ l.definitions

theorem Layout.Accounts.append {a b : Layout} (ha : a.Accounts) (hb : b.Accounts) :
    (a ++ b).Accounts := by
  constructor
  · intro id hid
    rcases List.mem_append.mp hid with hid | hid
    · exact List.mem_append_left _ (ha.params id hid)
    · exact List.mem_append_right _ (hb.params id hid)
  · intro site hsite id hid
    rcases List.mem_append.mp hsite with hsite | hsite
    · exact List.mem_append_left _ (ha.results site hsite id hid)
    · exact List.mem_append_right _ (hb.results site hsite id hid)
  · intro app happ
    rcases List.mem_append.mp happ with happ | happ
    · exact List.mem_append_left _ (ha.applications app happ)
    · exact List.mem_append_right _ (hb.applications app happ)

/-- A layout of edges, blocks and definitions of the scope's own. -/
theorem Layout.Accounts.of_nil {l : Layout} (hparams : l.params = []) (hsites : l.sites = [])
    (happlications : l.applications = []) : l.Accounts :=
  ⟨fun _ h => (nomatch hparams ▸ h), fun _ h => (nomatch hsites ▸ h),
    fun _ h => (nomatch happlications ▸ h)⟩

theorem accounts_application (p : Region) (node : NodeId) (name : String)
    (operands : List NodeId) : (p.application node name operands).Accounts := by
  refine ⟨fun _ h => (nomatch h), fun _ h => (nomatch h), fun a ha => ?_⟩
  rw [List.mem_singleton.mp ha]
  exact List.mem_cons_self

theorem accounts_site (p : Region) (function : String) (arguments results : List NodeId)
    (loc : Loc) : (p.site function arguments results loc).Accounts := by
  refine ⟨fun _ h => (nomatch h), fun site hsite id hid => ?_, fun _ h => (nomatch h)⟩
  rw [List.mem_singleton.mp hsite] at hid
  exact List.mem_map_of_mem hid

theorem accounts_params (p : Region) (ids : List NodeId) : (p.params ids).Accounts :=
  ⟨fun _ hid => List.mem_map_of_mem hid, fun _ h => (nomatch h), fun _ h => (nomatch h)⟩

mutual

theorem Term.accounts (p : Region) (t : Term) : (t.layout p).Accounts := by
  cases t with
  | literal node value => exact .of_nil rfl rfl rfl
  | read id => exact .of_nil rfl rfl rfl
  | apply node name args =>
    exact ((Term.accounts_all p args).append (.of_nil rfl rfl rfl)).append
      (accounts_application p _ _ _)
  | call node function args loc =>
    exact ((Term.accounts_all p args).append (.of_nil rfl rfl rfl)).append
      (accounts_site p _ _ _ _)

theorem Term.accounts_all (p : Region) (ts : List Term) : (Term.layouts p ts).Accounts := by
  cases ts with
  | nil => exact .of_nil rfl rfl rfl
  | cons t rest => exact (t.accounts p).append (accounts_all p rest)

end

mutual

theorem Code.accounts (p : Region) (code : Code) : (code.layout p).Accounts := by
  cases code with
  | seq first second => exact (first.accounts p).append (second.accounts p)
  | compute target name args =>
    exact ((Term.accounts_all p args).append (.of_nil rfl rfl rfl)).append
      (accounts_application p _ _ _)
  | scatter value targets => exact (value.accounts p).append (.of_nil rfl rfl rfl)
  | call function args targets loc =>
    exact ((Term.accounts_all p args).append (.of_nil rfl rfl rfl)).append
      (accounts_site p _ _ _ _)
  | branch condition block body =>
    exact ((condition.accounts p).append (.of_nil rfl rfl rfl)).append (body.accounts _)
  | switch selector cases => exact (selector.accounts p).append (cases.accounts p _)
  | loop init condition block body post =>
    have htested : (condition.tested p).Accounts :=
      (condition.accounts p).append (.of_nil rfl rfl rfl)
    exact ((((init.accounts p).append htested).append (.of_nil rfl rfl rfl)).append
      (body.accounts _)).append (post.accounts _)
  | _ => exact .of_nil rfl rfl rfl

theorem Cases.accounts (p : Region) (selector : NodeId) (cases : Cases) :
    (cases.layout p selector).Accounts := by
  cases cases with
  | nil => exact .of_nil rfl rfl rfl
  | fallback block body => exact Layout.Accounts.append (.of_nil rfl rfl rfl) (body.accounts _)
  | cons value block body rest =>
    exact (Layout.Accounts.append (.of_nil rfl rfl rfl) (body.accounts _)).append
      (rest.accounts p selector)

end

/-- Whatever comes into a function from elsewhere has a definition. -/
theorem Function.accounts (f : Function) : f.layout.Accounts := by
  have hreturns : (f.region.returns f.returns).Accounts := .of_nil rfl rfl rfl
  exact Layout.Accounts.append (.of_nil rfl rfl rfl)
    (((accounts_params _ _).append hreturns).append (f.body.accounts _))

def Layout.targets (l : Layout) : List NodeId :=
  l.definitions.map (·.target)

theorem Layout.targets_append (a b : Layout) : (a ++ b).targets = a.targets ++ b.targets :=
  List.map_append

section Grounded

variable {known : NodeId → Prop} {p : Region}

def Layout.Grounded (known : NodeId → Prop) (l : Layout) : Prop :=
  YulTaint.Grounded known l.definitions

theorem Layout.Grounded.append {a b : Layout} (ha : a.Grounded known)
    (hb : b.Grounded fun id => known id ∨ id ∈ a.targets) : (a ++ b).Grounded known :=
  YulTaint.Grounded.append ha hb

/-- What stands behind needs nothing of what stands before. -/
theorem Layout.Grounded.beside {a b : Layout} (ha : a.Grounded known) (hb : b.Grounded known) :
    (a ++ b).Grounded known :=
  ha.append (hb.mono fun _ hid => Or.inl hid)

theorem Layout.grounded_of_nil {l : Layout} (h : l.definitions = []) : l.Grounded known := by
  rw [Layout.Grounded, h]
  trivial

/-- Every definition has its value from elsewhere. -/
theorem grounded_constants (targets : List NodeId) (d : NodeId → Definition)
    (hd : ∀ target, (d target).uses = []) : YulTaint.Grounded known (targets.map d) := by
  refine grounded_of_uses fun d' hd' id hid => ?_
  obtain ⟨target, _, rfl⟩ := List.mem_map.mp hd'
  rw [hd target] at hid
  cases hid

mutual

/-- The definitions of an expression are grounded, and they define its node
unless it is known already. -/
theorem Term.grounded (t : Term) (h : t.Reads known) :
    (t.layout p).Grounded known ∧ (known t.node ∨ t.node ∈ (t.layout p).targets) := by
  cases t with
  | literal node value => exact ⟨⟨fun _ h => (nomatch h), trivial⟩, Or.inr List.mem_cons_self⟩
  | read id => exact ⟨trivial, Or.inl h⟩
  | apply node name args =>
    obtain ⟨hargs, hnodes⟩ := Term.grounded_all args h
    refine ⟨(hargs.beside (Layout.grounded_of_nil rfl)).append ⟨fun id hid => ?_, trivial⟩, ?_⟩
    · obtain ⟨t, ht, rfl⟩ := List.mem_map.mp hid
      rw [Layout.targets_append]
      exact (hnodes t ht).imp_right fun hmem => List.mem_append_left _ hmem
    · rw [Term.layout, Layout.targets_append]
      exact Or.inr (List.mem_append_right _ List.mem_cons_self)
  | call node function args loc =>
    obtain ⟨hargs, _⟩ := Term.grounded_all args h
    refine ⟨(hargs.beside (Layout.grounded_of_nil rfl)).append ?_, ?_⟩
    · exact ⟨fun _ h => (nomatch h), trivial⟩
    · rw [Term.layout, Layout.targets_append]
      exact Or.inr (List.mem_append_right _ List.mem_cons_self)

theorem Term.grounded_all (ts : List Term) (h : Term.ReadsAll known ts) :
    (Term.layouts p ts).Grounded known ∧
      ∀ t ∈ ts, known t.node ∨ t.node ∈ (Term.layouts p ts).targets := by
  cases ts with
  | nil => exact ⟨trivial, fun _ h => nomatch h⟩
  | cons t rest =>
    obtain ⟨hfirst, hnode⟩ := Term.grounded t h.1
    obtain ⟨hrest, hnodes⟩ := Term.grounded_all rest h.2
    refine ⟨hfirst.beside hrest, ?_⟩
    rw [Term.layouts, Layout.targets_append]
    refine List.forall_mem_cons.mpr ⟨?_, fun t' ht' => ?_⟩
    · exact hnode.imp_right fun hmem => List.mem_append_left _ hmem
    · exact (hnodes t' ht').imp_right fun hmem => List.mem_append_right _ hmem

end

/-- What has a value once code has run is defined by it. -/
theorem Code.assigned_subset (p : Region) (code : Code) :
    code.assigned ⊆ (code.layout p).targets := by
  cases code with
  | seq first second =>
    rw [Code.layout, Layout.targets_append]
    exact List.append_subset.mpr
      ⟨fun _ h => List.mem_append_left _ (first.assigned_subset p h),
        fun _ h => List.mem_append_right _ (second.assigned_subset p h)⟩
  | constant targets value =>
    exact fun id hid => List.mem_map.mpr ⟨_, List.mem_map_of_mem hid, rfl⟩
  | copy targets source =>
    exact fun id hid => List.mem_map.mpr ⟨_, List.mem_map_of_mem hid, rfl⟩
  | compute target name args =>
    rw [Code.layout, Layout.targets_append]
    exact fun id hid => List.mem_append_right _ hid
  | scatter value targets =>
    rw [Code.layout, Layout.targets_append]
    exact fun id hid => List.mem_append_right _
      (List.mem_map.mpr ⟨_, List.mem_map_of_mem hid, rfl⟩)
  | call function args targets loc =>
    rw [Code.layout, Layout.targets_append]
    exact fun id hid => List.mem_append_right _
      (List.mem_map.mpr ⟨_, List.mem_map_of_mem hid, rfl⟩)
  | loop init condition block body post =>
    simp only [Code.layout, Layout.targets_append, List.append_assoc]
    exact fun id hid => List.mem_append_left _ (init.assigned_subset p hid)
  | _ => exact List.nil_subset _

mutual

/-- Code that reads known variables uses nothing undefined in its definitions. -/
theorem Code.grounded (code : Code) {known : NodeId → Prop} {p : Region} (h : code.Reads known) :
    (code.layout p).Grounded known := by
  cases code with
  | seq first second =>
    refine (first.grounded h.1).append ((second.grounded h.2).mono fun id hid => ?_)
    exact hid.imp_right fun hmem => first.assigned_subset p hmem
  | constant targets value => exact grounded_constants targets _ fun _ => rfl
  | copy targets source =>
    refine grounded_of_uses fun d hd id hid => ?_
    obtain ⟨target, _, rfl⟩ := List.mem_map.mp hd
    rw [List.mem_singleton.mp hid]
    exact h
  | compute target name args =>
    obtain ⟨hargs, hnodes⟩ := Term.grounded_all (p := p) args h
    refine (hargs.beside (Layout.grounded_of_nil rfl)).append ⟨fun id hid => ?_, trivial⟩
    obtain ⟨t, ht, rfl⟩ := List.mem_map.mp hid
    rw [Layout.targets_append]
    exact (hnodes t ht).imp_right fun hmem => List.mem_append_left _ hmem
  | scatter value targets =>
    exact (value.grounded h).1.beside (grounded_constants targets _ fun _ => rfl)
  | call function args targets loc =>
    exact ((Term.grounded_all args h).1.beside (Layout.grounded_of_nil rfl)).beside
      (grounded_constants targets _ fun _ => rfl)
  | branch condition block body =>
    exact ((condition.grounded h.1).1.beside (Layout.grounded_of_nil rfl)).beside
      (body.grounded h.2)
  | switch selector cases => exact (selector.grounded h.1).1.beside (cases.grounded h.2)
  | loop init condition block body post =>
    obtain ⟨hinit, hcondition, hbody, hpost⟩ := h
    have hinit' : (init.layout p).Grounded known := init.grounded hinit
    have hrest : ((condition.tested p ++ p.governed condition.node block ++
        body.layout (p.looping block)) ++ post.layout (p.looping block)).Grounded
          fun id => known id ∨ id ∈ init.assigned :=
      ((((condition.grounded hcondition).1.beside (Layout.grounded_of_nil rfl)).beside
        (Layout.grounded_of_nil rfl)).beside (body.grounded hbody)).beside (post.grounded hpost)
    have hall := hinit'.append (hrest.mono fun id hid =>
      hid.imp_right fun hmem => init.assigned_subset p hmem)
    simpa [Layout.Grounded, Code.layout, List.append_assoc] using hall
  | _ => exact Layout.grounded_of_nil rfl

theorem Cases.grounded (cases : Cases) {known : NodeId → Prop} {p : Region} {selector : NodeId}
    (h : cases.Reads known) : (cases.layout p selector).Grounded known := by
  cases cases with
  | nil => exact trivial
  | fallback block body => exact Layout.Grounded.beside (Layout.grounded_of_nil rfl) (body.grounded h)
  | cons value block body rest =>
    exact (Layout.Grounded.beside (Layout.grounded_of_nil rfl) (body.grounded h.1)).beside
      (rest.grounded h.2)

end

/-- A function uses what it defines; node 0, which stands for names that are not
bound, is the one exception. -/
theorem Function.grounded {f : Function} (h : f.body.Reads f.Knows) :
    f.layout.Grounded (· = 0) := by
  have hparams : (f.region.params f.params).Grounded (· = 0) :=
    Layout.Grounded.beside (Layout.grounded_of_nil rfl) (grounded_constants f.params _ fun _ => rfl)
  have hreturns : (f.region.returns f.returns).Grounded (· = 0) :=
    Layout.Grounded.beside (Layout.grounded_of_nil rfl) (grounded_constants f.returns _ fun _ => rfl)
  have hheader : (f.region.params f.params ++ f.region.returns f.returns).Grounded (· = 0) :=
    hparams.beside hreturns
  refine Layout.Grounded.beside (Layout.grounded_of_nil rfl)
    (hheader.append ((f.body.grounded h).mono fun id hid => ?_))
  rw [Layout.targets_append]
  rcases hid with hzero | hparam | hreturn
  · exact Or.inl hzero
  · refine Or.inr (List.mem_append_left _ (List.mem_map.mpr ⟨.arbitrary id, ?_, rfl⟩))
    exact List.mem_map_of_mem hparam
  · refine Or.inr (List.mem_append_right _ (List.mem_map.mpr ⟨.constant id 0, ?_, rfl⟩))
    exact List.mem_map_of_mem hreturn

end Grounded

end YulTaint.Execution
