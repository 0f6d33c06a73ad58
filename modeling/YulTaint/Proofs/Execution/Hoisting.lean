import Mathlib.Tactic
import YulTaint.Proofs.Execution.Defined
import YulTaint.Proofs.Flow.Acceptance
import YulTaint.Proofs.Program.Turns

/-!
The code of a program resolves its calls as the text says. Code is numbered along
the events of the text: the functions that are queued on the way are those that
are met, and a call is laid out as a call site if it refers to a function, else
as the application of a builtin. The scope of a function goes with its place.
-/

namespace YulTaint.Execution

open YulTaint.Flow (FunctionEntry FunctionFrame PendingFunction Variables)

abbrev Scopes := List (Place × String)

/-- A function of the text and its entry, which knows its scope. -/
structure Matches (known : Scopes) (d : Lexical.Entry) (e : FunctionEntry) : Prop where
  name : e.name = d.name
  params : e.params = d.params
  returns : e.returns = d.returns
  body : e.body = d.body
  scope : (d.place, e.scope) ∈ known

/-- The blocks around a place. -/
def Agree (known : Scopes) (visible : List Lexical.Frame) (frames : List FunctionFrame) : Prop :=
  List.Forall₂ (List.Forall₂ (Matches known)) visible frames

structure Waits (known : Scopes) (f : Lexical.Pending) (g : PendingFunction) : Prop where
  entry : Matches known f.entry g.entry
  visible : Agree known f.visible g.visible

/-- The call site of a call, which leads to the scope of the function that the
call refers to. -/
structure IsSiteOf (known : Scopes) (scope : String) (c : Lexical.Call) (site : CallSite) :
    Prop where
  caller : site.caller = scope
  callee : ∃ d, c.target = some d ∧ (d, site.callee) ∈ known
  arguments : site.arguments.length = c.arguments
  loc : site.loc = some c.loc

structure IsApplicationOf (c : Lexical.Call) (a : Application) : Prop where
  name : a.name = c.name
  operands : a.operands.length = c.arguments

/-- Calls of functions have their sites, in order, and all others have their
applications. -/
structure Reports (known : Scopes) (scope : String) (cs : List Lexical.Call) (l : Layout) :
    Prop where
  sites : List.Forall₂ (IsSiteOf known scope) (cs.filter (·.target.isSome)) l.sites
  applications : List.Forall₂ IsApplicationOf (cs.filter (·.target.isNone)) l.applications

section Known

variable {known more : Scopes} {scope : String} {l l' : Layout} {cs : List Lexical.Call}

theorem Matches.mono {d : Lexical.Entry} {e : FunctionEntry} (h : Matches known d e)
    (hmore : known ⊆ more) : Matches more d e :=
  ⟨h.name, h.params, h.returns, h.body, hmore h.scope⟩

theorem Agree.mono {visible : List Lexical.Frame} {frames : List FunctionFrame}
    (h : Agree known visible frames) (hmore : known ⊆ more) : Agree more visible frames :=
  h.imp fun _ _ hframe => hframe.imp fun _ _ hentry => hentry.mono hmore

theorem Waits.mono {f : Lexical.Pending} {g : PendingFunction} (h : Waits known f g)
    (hmore : known ⊆ more) : Waits more f g :=
  ⟨h.entry.mono hmore, h.visible.mono hmore⟩

theorem Reports.mono (h : Reports known scope cs l) (hmore : known ⊆ more) :
    Reports more scope cs l := by
  refine ⟨h.sites.imp fun c site hsite => ?_, h.applications⟩
  obtain ⟨d, htarget, hd⟩ := hsite.callee
  exact ⟨hsite.caller, ⟨d, htarget, hmore hd⟩, hsite.arguments, hsite.loc⟩

theorem Reports.append {cs' : List Lexical.Call} (h : Reports known scope cs l)
    (h' : Reports known scope cs' l') : Reports known scope (cs ++ cs') (l ++ l') := by
  constructor
  · rw [List.filter_append]
    exact List.rel_append h.sites h'.sites
  · rw [List.filter_append]
    exact List.rel_append h.applications h'.applications

theorem reports_nil (hsites : l.sites = []) (happlications : l.applications = []) :
    Reports known scope [] l := by
  constructor
  · rw [hsites]
    exact .nil
  · rw [happlications]
    exact .nil

/-- Layouts without calls around one with calls. -/
theorem Reports.after (h : Reports known scope cs l) (hsites : l'.sites = [])
    (happlications : l'.applications = []) :
    Reports known scope cs (l' ++ l) :=
  (reports_nil hsites happlications).append h

theorem Reports.before (h : Reports known scope cs l) (hsites : l'.sites = [])
    (happlications : l'.applications = []) :
    Reports known scope cs (l ++ l') := by
  have happend := h.append (reports_nil hsites happlications)
  rwa [List.append_nil] at happend

theorem Matches.find? {ds : List Lexical.Entry} {es : List FunctionEntry}
    (h : List.Forall₂ (Matches known) ds es) (name : String) :
    Option.Rel (Matches known) (ds.find? (·.name = name)) (es.find? (·.name = name)) := by
  induction h with
  | nil => exact .none
  | cons hde _ ih =>
    rw [List.find?_cons, List.find?_cons, hde.name]
    split
    · exact .some hde
    · exact ih

/-- A name means the same in the text and in the code. -/
theorem Agree.resolve {visible : List Lexical.Frame} {env : Surroundings}
    (h : Agree known visible env.functions) (name : String) :
    Option.Rel (Matches known) (Lexical.resolve visible name) (env.function? name) := by
  rw [Lexical.resolve, Surroundings.function?, ← List.find?_flatten, ← List.find?_flatten]
  exact Matches.find? (List.rel_flatten h) name

/-- Text and walk look a name up with the same outcome. -/
theorem Agree.target {visible : List Lexical.Frame} {env : Surroundings}
    (h : Agree known visible env.functions) (q : Place) (name : String) (args : List Node)
    (loc : Loc) :
    (env.function? name = none ∧ (Lexical.callAt visible q name args loc).target = none) ∨
      ∃ entry d, env.function? name = some entry ∧
        (Lexical.callAt visible q name args loc).target = some d ∧ (d, entry.scope) ∈ known := by
  have hresolve := h.resolve name
  rw [Lexical.callAt]
  generalize Lexical.resolve visible name = meant at hresolve ⊢
  generalize env.function? name = found at hresolve ⊢
  cases hresolve with
  | none => exact Or.inl ⟨rfl, rfl⟩
  | some hde => exact Or.inr ⟨_, _, rfl, rfl, hde.scope⟩

end Known

/-- The places of functions with the scopes that they are queued under. -/
def links (fs : List Lexical.Pending) (gs : List PendingFunction) : Scopes :=
  List.zipWith (fun f g => (f.entry.place, g.entry.scope)) fs gs

namespace Label

open Lexical (hoisted calls events eventsAll eventsOption entries entering)

variable {α β : Type} {known : Scopes} {es es' : List Lexical.Event} {Q : α → Scopes → Prop}
  {m : Label α} {n : Numbering} {R : β → Scopes → Prop} {k : α → Label β}

/-- Code is numbered along events: what is queued matches the functions that are
met, and something holds of the result with their scopes known. -/
def Follows (m : Label α) (known : Scopes) (es : List Lexical.Event) (Q : α → Scopes → Prop) :
    Prop :=
  ∀ n, ∃ new, (m n).2.queue = n.queue ++ new ∧
    List.Forall₂ (Waits (known ++ links (hoisted es) new)) (hoisted es) new ∧
    Q (m n).1 (known ++ links (hoisted es) new)

theorem Follows.run {t : Numbering} {a : α} (h : m.Follows known es Q) (hrun : m n = (a, t)) :
    ∃ new, t.queue = n.queue ++ new ∧
      List.Forall₂ (Waits (known ++ links (hoisted es) new)) (hoisted es) new ∧
      Q a (known ++ links (hoisted es) new) := by
  have hn := h n
  rwa [hrun] at hn

def IsSilent (m : Label α) : Prop :=
  ∀ n, (m n).2.queue = n.queue

theorem follows_of_isSilent (h : IsSilent m) (hes : hoisted es = []) (hQ : ∀ n, Q (m n).1 known) :
    m.Follows known es Q := by
  intro n
  refine ⟨[], by rw [h, List.append_nil], hes ▸ .nil, ?_⟩
  have hknown : known ++ links (hoisted es) [] = known := by
    rw [hes]
    exact List.append_nil _
  rw [hknown]
  exact hQ n

theorem follows_pure {a : α} (hes : hoisted es = []) (hQ : Q a known) :
    (pure a : Label α).Follows known es Q :=
  follows_of_isSilent (fun _ => rfl) hes fun _ => hQ

theorem links_append {fs fs' : List Lexical.Pending} {gs gs' : List PendingFunction}
    (h : fs.length = gs.length) : links (fs ++ fs') (gs ++ gs') = links fs gs ++ links fs' gs' :=
  List.zipWith_append h

/-- What is queued first is known to the code after it. -/
theorem Follows.bind (hm : m.Follows known es Q)
    (hk : ∀ a more, known ⊆ more → Q a more → (k a).Follows more es' R) :
    (m >>= k).Follows known (es ++ es') R := by
  intro n
  obtain ⟨new, hqueue, hwaits, hQ⟩ := hm n
  obtain ⟨new', hqueue', hwaits', hR⟩ := hk _ _ (List.subset_append_left _ _) hQ (m n).2
  have hlinks : known ++ links (hoisted (es ++ es')) (new ++ new') =
      known ++ links (hoisted es) new ++ links (hoisted es') new' := by
    rw [Lexical.hoisted_append, links_append hwaits.length_eq, List.append_assoc]
  refine ⟨new ++ new', ?_, ?_, hlinks ▸ hR⟩
  · rw [← List.append_assoc, ← hqueue]
    exact hqueue'
  · rw [hlinks, Lexical.hoisted_append]
    refine List.rel_append (hwaits.imp fun f g hfg => ?_) hwaits'
    exact hfg.mono (List.subset_append_left _ _)

theorem Follows.bind_pure {f : α → β} (hm : m.Follows known es Q)
    (hR : ∀ a more, known ⊆ more → Q a more → R (f a) more) :
    (m >>= fun a => pure (f a)).Follows known es R := by
  have hbind : (m >>= fun a => pure (f a)).Follows known (es ++ []) R :=
    hm.bind fun a more hmore hQ => follows_pure rfl (hR a more hmore hQ)
  rwa [List.append_nil] at hbind

theorem IsSilent.bind_yields {P : α → Prop} (hm : IsSilent m) (hP : m.Yields P)
    (hk : ∀ a, P a → (k a).Follows known es R) : (m >>= k).Follows known es R := by
  intro n
  obtain ⟨new, hqueue, hrest⟩ := hk (m n).1 (hP n) (m n).2
  exact ⟨new, hqueue.trans (by rw [hm n]), hrest⟩

theorem IsSilent.bind_follows (hm : IsSilent m) (hk : ∀ a, (k a).Follows known es R) :
    (m >>= k).Follows known es R :=
  hm.bind_yields (yields_any m) fun a _ => hk a

theorem isSilent_fresh : IsSilent fresh :=
  fun _ => rfl

theorem declare_spec (vars : Variables) (names : List String) (n : Numbering) :
    (declare vars names n).2.queue = n.queue ∧
      (declare vars names n).1.2.length = names.length := by
  induction names generalizing vars n with
  | nil => exact ⟨rfl, rfl⟩
  | cons name rest ih =>
    obtain ⟨hqueue, hlength⟩ := ih ((name, n.next) :: vars) { n with next := n.next + 1 }
    exact ⟨hqueue, congrArg (· + 1) hlength⟩

theorem isSilent_declare (vars : Variables) (names : List String) :
    IsSilent (declare vars names) :=
  fun n => (declare_spec vars names n).1

section Terms

variable {env : Surroundings} {vars : Variables} {visible : List Lexical.Frame} {v : Sight}

theorem reports_site {scope : String} {c : Lexical.Call} {l : Layout} {site : CallSite}
    (hsite : IsSiteOf known scope c site) (hsites : l.sites = [site])
    (happlications : l.applications = []) : Reports known scope [c] l := by
  obtain ⟨d, htarget, _⟩ := hsite.callee
  constructor
  · rw [hsites, List.filter_cons_of_pos (by rw [htarget]; rfl)]
    exact .cons hsite .nil
  · rw [happlications, List.filter_cons_of_neg (by rw [htarget]; exact Bool.false_ne_true)]
    exact .nil

theorem reports_application {scope : String} {c : Lexical.Call} {l : Layout} {a : Application}
    (htarget : c.target = none) (ha : IsApplicationOf c a) (hsites : l.sites = [])
    (happlications : l.applications = [a]) : Reports known scope [c] l := by
  constructor
  · rw [hsites, List.filter_cons_of_neg (by rw [htarget]; exact Bool.false_ne_true)]
    exact .nil
  · rw [happlications, List.filter_cons_of_pos (by rw [htarget]; rfl)]
    exact .cons ha .nil

mutual

/-- The calls of an expression are numbered in the order of the text. -/
theorem follows_term (e : Node) (h : v.IsOperand e) {known : Scopes}
    (henv : Agree known visible env.functions) (q : Place) :
    (term env vars e).Follows known (events visible q e) fun t more =>
      ∀ p : Region, Reports more p.scope (calls (events visible q e)) (t.layout p) := by
  cases e with
  | literal value loc =>
    exact isSilent_fresh.bind_follows fun node => follows_pure rfl fun p => reports_nil rfl rfl
  | identifier name loc => exact follows_pure rfl fun p => reports_nil rfl rfl
  | call name args loc =>
    rw [term, events, Lexical.calls_append]
    refine (follows_terms args h.2 henv q 0).bind fun ts more hmore hts => ?_
    refine isSilent_fresh.bind_follows fun node => ?_
    obtain ⟨hlength, hargs⟩ := hts
    have hcount : (ts.map (·.node)).length = args.length := by rw [List.length_map, hlength]
    rcases (henv.mono hmore).target q name args loc with
      ⟨hfunction, htarget⟩ | ⟨entry, d, hfunction, htarget, hscope⟩
    · rw [hfunction]
      refine follows_pure rfl fun p => ((hargs p).before rfl rfl).append ?_
      exact reports_application htarget ⟨rfl, hcount⟩ rfl rfl
    · rw [hfunction]
      refine follows_pure rfl fun p => ((hargs p).before rfl rfl).append ?_
      exact reports_site ⟨rfl, ⟨d, htarget, hscope⟩, hcount, rfl⟩ rfl rfl
  | _ => exact h.elim

theorem follows_terms (es : List Node) (h : v.AreOperands es) {known : Scopes}
    (henv : Agree known visible env.functions) (q : Place) (i : Nat) :
    (terms env vars es).Follows known (eventsAll visible q i es) fun ts more =>
      ts.length = es.length ∧
        ∀ p : Region, Reports more p.scope (calls (eventsAll visible q i es))
          (Term.layouts p ts) := by
  cases es with
  | nil => exact follows_pure rfl ⟨rfl, fun p => reports_nil rfl rfl⟩
  | cons e rest =>
    rw [terms, eventsAll, Lexical.calls_append]
    refine (follows_term e h.1 henv (q ++ [i])).bind fun t more hmore ht => ?_
    refine (follows_terms rest h.2 (henv.mono hmore) q (i + 1)).bind_pure ?_
    rintro ts more' hmore' ⟨hlength, hts⟩
    refine ⟨congrArg (· + 1) hlength, fun p => ?_⟩
    exact ((ht p).mono hmore').append (hts p)

end

def CodeReports (cs : List Lexical.Call) (code : Code) (known : Scopes) : Prop :=
  ∀ p : Region, Reports known p.scope cs (code.layout p)

theorem follows_callInto {args : List Node} (h : v.AreOperands args)
    (henv : Agree known visible env.functions) (q : Place) (targets : List NodeId) (name : String)
    (loc : Loc) :
    (callInto env vars targets name args loc).Follows known
      (events visible q (.call name args loc))
      (CodeReports (calls (events visible q (.call name args loc)))) := by
  rw [callInto, events, Lexical.calls_append]
  refine (follows_terms args h henv q 0).bind fun ts more hmore hts => ?_
  obtain ⟨hlength, hargs⟩ := hts
  have hcount : (ts.map (·.node)).length = args.length := by rw [List.length_map, hlength]
  rcases (henv.mono hmore).target q name args loc with
    ⟨hfunction, htarget⟩ | ⟨entry, d, hfunction, htarget, hscope⟩
  · rw [hfunction]
    have hscatter : (do
        let node ← fresh
        return .scatter (.apply node name ts) targets : Label Code).Follows more
          [.call (Lexical.callAt visible q name args loc)]
          (CodeReports (calls (eventsAll visible q 0 args) ++
            calls [.call (Lexical.callAt visible q name args loc)])) := by
      refine isSilent_fresh.bind_follows fun node => follows_pure rfl fun p => ?_
      refine Reports.before (((hargs p).before rfl rfl).append ?_) rfl rfl
      exact reports_application htarget ⟨rfl, hcount⟩ rfl rfl
    cases targets with
    | nil => exact hscatter
    | cons target rest =>
      cases rest with
      | nil =>
        refine follows_pure rfl fun p => ((hargs p).before rfl rfl).append ?_
        exact reports_application htarget ⟨rfl, hcount⟩ rfl rfl
      | cons => exact hscatter
  · rw [hfunction]
    refine follows_pure rfl fun p => ((hargs p).before rfl rfl).append ?_
    exact reports_site ⟨rfl, ⟨d, htarget, hscope⟩, hcount, rfl⟩ rfl rfl

theorem follows_assign {value : Node} {count : Nat} (h : v.Gives count value)
    (henv : Agree known visible env.functions) (q : Place) (targets : List NodeId) :
    (assign env vars targets value).Follows known (events visible q value)
      (CodeReports (calls (events visible q value))) := by
  cases value with
  | call name args loc => exact follows_callInto h.2 henv q targets name loc
  | literal value loc => exact follows_pure rfl fun p => reports_nil rfl rfl
  | identifier name loc => exact follows_pure rfl fun p => reports_nil rfl rfl
  | _ => exact h.2.elim

theorem follows_declaration {names : List String} {value : Option Node} {loc : Loc}
    (h : v.IsStatement (.declaration names value loc))
    (henv : Agree known visible env.functions) (q : Place) :
    (statement env vars (.declaration names value loc)).Follows known
      (events visible q (.declaration names value loc)) fun r more =>
        CodeReports (calls (events visible q (.declaration names value loc))) r.1 more := by
  rw [statement, events]
  refine (isSilent_declare vars names).bind_follows fun r => ?_
  cases value with
  | none => exact follows_pure rfl fun p => reports_nil rfl rfl
  | some value =>
    rw [eventsOption]
    refine (follows_assign (h.2.2.2 value rfl) henv (q ++ [0]) r.2).bind_pure ?_
    exact fun code more _ hcode p => (hcode p).after rfl rfl

end Terms

section Blocks

variable {env : Surroundings} {visible : List Lexical.Frame}

theorem nameFunctions_spec (scope : String) (q : Place) (i : Nat) (items : List Node)
    (n : Numbering) :
    (nameFunctions scope (Flow.definedFunctions items) n).2.queue = n.queue ∧
      List.Forall₂ (fun (d : Lexical.Entry) (e : FunctionEntry) => e.name = d.name ∧
          e.params = d.params ∧ e.returns = d.returns ∧ e.body = d.body)
        (entries q i items) (nameFunctions scope (Flow.definedFunctions items) n).1 := by
  induction items generalizing i n with
  | nil => exact ⟨rfl, .nil⟩
  | cons item rest ih =>
    cases item with
    | function name params returns body loc =>
      obtain ⟨hqueue, hnamed⟩ := ih (i + 1)
        { n with taken := Flow.uniqueScopeName n.taken scope name :: n.taken }
      exact ⟨hqueue, .cons ⟨rfl, rfl, rfl, rfl⟩ hnamed⟩
    | _ => exact ih (i + 1) n

/-- Functions are known once they are queued. -/
theorem matches_links {ds : List Lexical.Entry} {frame : FunctionFrame}
    (h : List.Forall₂ (fun (d : Lexical.Entry) (e : FunctionEntry) => e.name = d.name ∧
      e.params = d.params ∧ e.returns = d.returns ∧ e.body = d.body) ds frame)
    (known : Scopes) (visible : List Lexical.Frame) (frames : List FunctionFrame) :
    List.Forall₂
      (Matches (known ++ links (ds.map fun entry => { entry, visible })
        (frame.map fun entry => { entry, visible := frames }))) ds frame := by
  induction h generalizing known with
  | nil => exact .nil
  | @cons d e ds frame hde _ ih =>
    obtain ⟨hname, hparams, hreturns, hbody⟩ := hde
    have hlinks : known ++ links ((d :: ds).map fun entry => { entry, visible })
          ((e :: frame).map fun entry => { entry, visible := frames }) =
        known ++ [(d.place, e.scope)] ++ links (ds.map fun entry => { entry, visible })
          (frame.map fun entry => { entry, visible := frames }) := by
      rw [List.append_assoc]
      rfl
    rw [hlinks]
    refine .cons ⟨hname, hparams, hreturns, hbody, ?_⟩ (ih _)
    exact List.mem_append_left _ (List.mem_append_right _ List.mem_cons_self)

theorem hoisted_entering (visible : List Lexical.Frame) (frame : Lexical.Frame) :
    hoisted (entering visible frame) =
      frame.map fun entry => { entry, visible := frame :: visible } := by
  rw [hoisted, entering, List.filterMap_map]
  exact congrFun List.filterMap_eq_map frame

/-- The functions of a block are queued on entry, with the scopes of their names. -/
theorem follows_enter (henv : Agree known visible env.functions) (q : Place) (items : List Node) :
    (enter env items).Follows known (entering visible (entries q 0 items)) fun inner more =>
      Agree more (entries q 0 items :: visible) inner.functions := by
  intro n
  obtain ⟨hqueue, hnamed⟩ := nameFunctions_spec env.scope q 0 items n
  let frame := (nameFunctions env.scope (Flow.definedFunctions items) n).1
  refine ⟨frame.map fun entry => { entry, visible := frame :: env.functions }, ?_, ?_⟩
  · rw [← hqueue]
    rfl
  · rw [hoisted_entering]
    have hframe := matches_links hnamed known (entries q 0 items :: visible)
      (frame :: env.functions)
    have hagree := List.Forall₂.cons hframe (henv.mono (List.subset_append_left _ _))
    refine ⟨?_, hagree⟩
    rw [List.forall₂_map_left_iff, List.forall₂_map_right_iff]
    exact hframe.imp fun d e hde => ⟨hde, hagree⟩

theorem calls_entering (visible : List Lexical.Frame) (frame : Lexical.Frame) :
    calls (entering visible frame) = [] := by
  rw [calls, entering, List.filterMap_map]
  exact List.filterMap_eq_nil_iff.mpr fun _ _ => rfl

end Blocks

mutual

/-- The code of a statement has the calls that the text has there. -/
theorem follows_statement (item : Node) {env : Surroundings} {vars : Variables}
    {visible : List Lexical.Frame} {v : Sight} {known : Scopes} (h : v.IsStatement item)
    (henv : Agree known visible env.functions) (q : Place) :
    (statement env vars item).Follows known (events visible q item) fun r more =>
      CodeReports (calls (events visible q item)) r.1 more := by
  cases item with
  | declaration names value loc => exact follows_declaration h henv q
  | assignment names value loc =>
    rw [statement, events]
    exact (follows_assign h.2.2.2 henv (q ++ [0]) _).bind_pure fun code more _ hcode => hcode
  | expression value loc =>
    rw [statement, events]
    exact (follows_assign h henv (q ++ [0]) []).bind_pure fun code more _ hcode => hcode
  | branch condition body loc =>
    rw [statement, events, Lexical.calls_append]
    refine (follows_term condition h.1 henv (q ++ [0])).bind fun t more hmore ht => ?_
    refine isSilent_fresh.bind_follows fun block => ?_
    refine (follows_governed body h.2 (henv.mono hmore) (q ++ [1])).bind_pure ?_
    intro code last hlast hcode p
    exact (((ht p).mono hlast).before rfl rfl).append (hcode { p with block })
  | switch selector arms fallback loc =>
    obtain ⟨_, hselector, _, harms, hfallback⟩ := h
    rw [statement, events, List.append_assoc, Lexical.calls_append]
    refine (follows_term selector hselector henv (q ++ [0])).bind fun t more hmore ht => ?_
    refine (follows_switchArms arms harms (henv.mono hmore) q 1 ?_).bind_pure ?_
    · intro more' hmore'
      exact follows_switchFallback fallback hfallback
        (henv.mono (List.Subset.trans hmore hmore')) (q ++ [1 + arms.length])
    · intro cases last hsub hcases p
      exact ((ht p).mono hsub).append (hcases p t.node)
  | loop init condition post body loc =>
    obtain ⟨hinit, hcondition, hbody, hpost⟩ := h
    rw [statement, events]
    simp only [List.append_assoc, Lexical.calls_append]
    refine (follows_loopInit init hinit henv (q ++ [0])).bind fun r more hmore hcode => ?_
    refine (follows_term condition hcondition (henv.mono hmore) (q ++ [1])).bind
      fun t more₁ hmore₁ ht => ?_
    refine isSilent_fresh.bind_follows fun block => ?_
    have henv₁ := henv.mono (List.Subset.trans hmore hmore₁)
    refine (follows_governed body hbody henv₁ (q ++ [2])).bind
      fun code₂ more₂ hmore₂ hcode₂ => ?_
    refine (follows_governed post hpost (henv₁.mono hmore₂) (q ++ [3])).bind_pure
      fun code₃ more₃ hmore₃ hcode₃ p => ?_
    have hsub := List.Subset.trans hmore₂ hmore₃
    have hinit' := ((hcode p).mono hmore₁).mono hsub
    have htest : Reports more₃ p.scope _ (t.tested p) :=
      Reports.before ((ht p).mono hsub) rfl rfl
    have hbody' := (hcode₂ (p.looping block)).mono hmore₃
    rw [← List.append_assoc, ← List.append_assoc]
    exact Reports.append (Reports.append (Reports.before (hinit'.append htest) rfl rfl) hbody')
      (hcode₃ (p.looping block))
  | block items loc =>
    rw [statement, events, Lexical.calls_append, calls_entering, List.nil_append]
    refine (follows_enter henv q items).bind fun inner more _ hinner => ?_
    refine Follows.bind_pure (f := fun r => (r.1, vars))
      (follows_statements items h.2 hinner q 0) ?_
    exact fun r last _ hcode => hcode
  | function => exact follows_pure rfl fun p => reports_nil rfl rfl
  | breakOut | continueOn | leave => exact follows_pure rfl fun p => reports_nil rfl rfl
  | _ => exact h.elim

theorem follows_statements (items : List Node) {env : Surroundings} {vars : Variables}
    {visible : List Lexical.Frame} {v : Sight} {known : Scopes} (h : v.AreStatements items)
    (henv : Agree known visible env.functions) (q : Place) (i : Nat) :
    (statements env vars items).Follows known (eventsAll visible q i items) fun r more =>
      CodeReports (calls (eventsAll visible q i items)) r.1 more := by
  cases items with
  | nil => exact follows_pure rfl fun p => reports_nil rfl rfl
  | cons item rest =>
    rw [statements, eventsAll, Lexical.calls_append]
    refine (follows_statement item h.1 henv (q ++ [i])).bind fun first more hmore hfirst => ?_
    refine (follows_statements rest h.2 (henv.mono hmore) q (i + 1)).bind_pure ?_
    exact fun others last hlast hothers p => ((hfirst p).mono hlast).append (hothers p)

theorem follows_governed (body : Node) {env : Surroundings} {vars : Variables}
    {visible : List Lexical.Frame} {v : Sight} {known : Scopes} (h : v.IsBlock body)
    (henv : Agree known visible env.functions) (q : Place) :
    (governed env vars body).Follows known (events visible q body)
      (CodeReports (calls (events visible q body))) := by
  cases body with
  | block items loc =>
    rw [governed, events, Lexical.calls_append, calls_entering, List.nil_append]
    refine (follows_enter henv q items).bind fun inner more _ hinner => ?_
    refine Follows.bind_pure (f := fun r => r.1) (follows_statements items h.2 hinner q 0) ?_
    exact fun r last _ hcode => hcode
  | _ => exact h.elim

theorem follows_loopInit (init : Node) {env : Surroundings} {vars : Variables}
    {visible : List Lexical.Frame} {v : Sight} {known : Scopes} (h : v.IsInit init)
    (henv : Agree known visible env.functions) (q : Place) :
    (loopInit env vars init).Follows known (events visible q init) fun r more =>
      CodeReports (calls (events visible q init)) r.1 more := by
  cases init with
  | block items loc | program name items loc =>
    rw [loopInit, events, Lexical.calls_append, calls_entering, List.nil_append]
    refine (follows_enter henv q items).bind fun inner more _ hinner => ?_
    exact follows_statements items h.2 hinner q 0
  | _ => exact h.elim

theorem follows_switchArms (arms : List Node) {env : Surroundings} {vars : Variables}
    {visible : List Lexical.Frame} {v : Sight} {known : Scopes} {last : Label Cases}
    {es : List Lexical.Event} (h : v.AreArms arms) (henv : Agree known visible env.functions)
    (q : Place) (i : Nat)
    (hlast : ∀ {more : Scopes}, known ⊆ more → last.Follows more es fun cases more' =>
      ∀ (p : Region) (selector : NodeId), Reports more' p.scope (calls es)
        (cases.layout p selector)) :
    (switchArms env vars last arms).Follows known (eventsAll visible q i arms ++ es)
      fun cases more => ∀ (p : Region) (selector : NodeId), Reports more p.scope
        (calls (eventsAll visible q i arms ++ es)) (cases.layout p selector) := by
  cases arms with
  | nil => exact hlast (List.Subset.refl _)
  | cons arm rest =>
    cases arm with
    | caseArm value body loc =>
      rw [switchArms, eventsAll, events, List.append_assoc, Lexical.calls_append]
      refine isSilent_fresh.bind_follows fun block => ?_
      refine (follows_governed body h.1 henv (q ++ [i] ++ [0])).bind
        fun code more hmore hcode => ?_
      refine (follows_switchArms rest h.2 (henv.mono hmore) q (i + 1)
        fun hmore' => hlast (List.Subset.trans hmore hmore')).bind_pure ?_
      intro cases more' hmore' hcases p selector
      have hbody := (hcode { p with block }).mono hmore'
      exact Reports.append (Reports.after hbody rfl rfl) (hcases p selector)
    | _ => exact h.elim

theorem follows_switchFallback (fallback : Option Node) {env : Surroundings} {vars : Variables}
    {visible : List Lexical.Frame} {v : Sight} {known : Scopes} (h : v.IsFallback fallback)
    (henv : Agree known visible env.functions) (q : Place) :
    (switchFallback env vars fallback).Follows known (eventsOption visible q fallback)
      fun cases more => ∀ (p : Region) (selector : NodeId), Reports more p.scope
        (calls (eventsOption visible q fallback)) (cases.layout p selector) := by
  cases fallback with
  | none => exact follows_pure rfl fun p selector => reports_nil rfl rfl
  | some body =>
    rw [switchFallback, eventsOption]
    refine isSilent_fresh.bind_follows fun block => ?_
    refine (follows_governed body h henv q).bind_pure fun code more _ hcode p selector => ?_
    exact (hcode { p with block }).after rfl rfl

end

/-- The code of a scope: it has the variables of its function, and its calls are
those that are met. -/
structure IsCodeOf (known : Scopes) (f : Lexical.Pending) (code : Function) : Prop where
  params : code.params.length = f.entry.params.length
  returns : code.returns.length = f.entry.returns.length
  reports : Reports known code.scope (calls f.events) code.layout

theorem IsCodeOf.mono {f : Lexical.Pending} {code : Function} {more : Scopes}
    (h : IsCodeOf known f code) (hmore : known ⊆ more) : IsCodeOf more f code :=
  ⟨h.params, h.returns, h.reports.mono hmore⟩

def scopesOf (order : List Lexical.Pending) (codes : List Function) : Scopes :=
  (order.map (·.entry.place)).zip (codes.map (·.scope))

/-- All who waited, and all who were met since, have had their turns. What is known
in the end are the scopes of their code. -/
structure HaveTurns (known : Scopes) (fs : List Lexical.Pending) (gs : List PendingFunction)
    (order : List Lexical.Pending) (codes : List Function) (more : Scopes) : Prop where
  serves : Lexical.Serves fs order
  keeps : known ⊆ more
  learns : more ⊆ known ++ scopesOf order codes
  waiting : links fs gs ⊆ scopesOf order codes
  isCode : List.Forall₂ (IsCodeOf more) order codes

/-- The function that waits longest has its turn, and what it queues comes last. -/
theorem HaveTurns.next {f : Lexical.Pending} {fs order : List Lexical.Pending}
    {g : PendingFunction} {gs new : List PendingFunction} {code : Function} {codes : List Function}
    {more : Scopes} (hlength : fs.length = gs.length) (hscope : code.scope = g.entry.scope)
    (hcode : IsCodeOf (known ++ links (hoisted f.events) new) f code)
    (h : HaveTurns (known ++ links (hoisted f.events) new) (fs ++ hoisted f.events) (gs ++ new)
      order codes more) :
    HaveTurns known (f :: fs) (g :: gs) (f :: order) (code :: codes) more := by
  have hlater : scopesOf order codes ⊆ scopesOf (f :: order) (code :: codes) :=
    List.subset_cons_self _ _
  have hlinks := h.waiting
  rw [links_append hlength, List.append_subset] at hlinks
  obtain ⟨hwaiting, hnew⟩ := hlinks
  refine ⟨.next h.serves, ?_, ?_, ?_, .cons (hcode.mono h.keeps) h.isCode⟩
  · exact List.Subset.trans (List.subset_append_left _ _) h.keeps
  · intro link hlink
    rcases List.mem_append.mp (h.learns hlink) with hbefore | hafter
    · rcases List.mem_append.mp hbefore with hknown | hmet
      · exact List.mem_append_left _ hknown
      · exact List.mem_append_right _ (hlater (hnew hmet))
    · exact List.mem_append_right _ (hlater hafter)
  · refine List.cons_subset.mpr ⟨?_, List.Subset.trans hwaiting hlater⟩
    have hhead : (f.entry.place, code.scope) ∈ scopesOf (f :: order) (code :: codes) :=
      List.mem_cons_self
    rwa [hscope] at hhead

end Label

end YulTaint.Execution
