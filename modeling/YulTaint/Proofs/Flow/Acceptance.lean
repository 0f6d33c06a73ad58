import Mathlib.Tactic
import YulTaint.Proofs.Flow.Judgement

/-!
The flow graph of a program exists if and only if the program is well formed;
otherwise collecting it ends with a structural fault, or where a field is read
of a node that has it not. One judgement for every function of the walk, then an
induction along the queue of functions.
-/

namespace YulTaint

theorem Literal.fits_iff (value : Literal) : value.Fits ↔ ∃ word, value.word? = .ok word := by
  cases value with
  | truth value => exact iff_of_true trivial ⟨_, rfl⟩
  | integer value =>
    simp only [Fits, word?]
    split_ifs with hneg hfits
    · exact iff_of_true (hneg.trans_le (Int.natCast_nonneg _)) ⟨_, rfl⟩
    · exact iff_of_true (by omega) ⟨_, rfl⟩
    · exact iff_of_false (by omega) (by simp)
  | text value =>
    simp only [Fits, word?, textWord?]
    split
    · exact iff_of_true ‹_› ⟨_, rfl⟩
    · exact iff_of_false ‹_› (by simp)

namespace Flow

section Expressions

variable {ctx : Context} {vars : Variables} {v : Sight} {s : WalkState} {value : Node}
  {S : Missing → Prop}

theorem requireCount_judges {name what : String} {expected actual : Nat} {loc : Loc} :
    Judges S (requireCount name what expected actual loc) s (expected = actual)
      fun _ t => t = s :=
  (judges_require decide_eq_true_iff.symm ⟨rfl, rfl⟩).imp fun _ _ h => h.1

/-- The numbers of arguments and results are checked one after the other. -/
theorem counts_judges {name : String} {params arguments returns results : Nat} {loc : Loc}
    (target : Callee) :
    Judges S (do
        requireCount name "arguments" params arguments loc
        requireCount name "return values" results returns loc
        return target) s (params = arguments ∧ returns = results) fun _ t => t = s := by
  refine Judges.congr ?_ (and_congr_right fun _ => eq_comm)
  refine requireCount_judges.bind ?_
  rintro _ t rfl _
  exact requireCount_judges.bind_pure fun _ u h _ => h

/-- A callee is found if and only if the numbers are admitted. -/
theorem callee_judges (h : Shows ctx vars s v) (name : String) (arguments results : Nat)
    (loc : Loc) :
    Judges S (callee ctx name arguments results loc) s (v.Admits name arguments results)
      fun _ t => t = s := by
  unfold callee
  cases hfunction : ctx.function? name with
  | some e =>
    obtain ⟨hname, hmem, honly⟩ := h.function?_eq_some hfunction
    refine (counts_judges (.user e)).congr ⟨fun hadmits => ?_, fun hcounts => ⟨?_, ?_⟩⟩
    · exact hadmits.function _ hmem hname
    · intro f hf heq
      rw [honly f hf heq]
      exact hcounts
    · intro b hb
      cases (h.unique.isNoBuiltin _ hmem).symm.trans (hname ▸ hb)
  | none =>
    have hnone := h.function?_eq_none.mp hfunction
    cases hbuiltin : Builtin.lookup? name with
    | some b =>
      refine (counts_judges .builtin).congr ⟨fun hadmits => ?_, fun hcounts => ⟨?_, ?_⟩⟩
      · exact hadmits.builtin b hbuiltin
      · exact fun f hf heq => absurd heq (hnone f hf)
      · intro b' hb'
        cases hbuiltin.symm.trans hb'
        exact hcounts
    | none =>
      refine judges_pure ⟨fun f hf heq => absurd heq (hnone f hf), fun b hb => ?_⟩ rfl
      cases hbuiltin.symm.trans hb

theorem literalWord_judges (value : Literal) (loc : Loc) (s : WalkState) :
    Judges S (literalWord value loc) s value.Fits fun word t => t = s ∧ value.word? = .ok word := by
  unfold literalWord
  cases hword : value.word? with
  | ok word => exact judges_pure (value.fits_iff.mpr ⟨word, hword⟩) ⟨rfl, rfl⟩
  | error reason =>
    refine judges_reject (fun hfits => ?_) (Malformation.isStructural _ _)
    obtain ⟨word, hok⟩ := value.fits_iff.mp hfits
    cases hword.symm.trans hok

mutual

/-- The walk of an expression decides whether it has one value. -/
theorem operand_judges (e : Node) {s : WalkState} (h : Shows ctx vars s v) :
    Judges S (operand ctx vars e) s (v.IsOperand e) fun _ _ => True := by
  cases e with
  | literal value loc =>
    rw [operand, Sight.IsOperand]
    refine (passes_temporary ctx "lit" loc).bind_judges fun id t _ => ?_
    exact (literalWord_judges value loc t).bind_passes fun word =>
      (passes_define _).bind fun _ => passes_pure id
  | identifier name loc =>
    rw [operand, Sight.IsOperand]
    exact (resolveName_judges h name loc).imp fun _ _ _ => trivial
  | call name args loc =>
    rw [operand, Sight.IsOperand]
    refine (callee_judges h name args.length 1 loc).bind ?_
    rintro target t rfl _
    refine (operands_judges args h).bind_passes fun ids => ?_
    refine (passes_temporary ctx "expr" loc).bind fun id => ?_
    exact (passes_deliver ctx target name ids id loc).bind fun _ => passes_pure id
  | _ => exact judges_reject id ⟨rfl, rfl⟩

theorem operands_judges (es : List Node) {s : WalkState} (h : Shows ctx vars s v) :
    Judges S (operands ctx vars es) s (v.AreOperands es) fun _ _ => True := by
  cases es with
  | nil => exact judges_pure trivial trivial
  | cons e rest =>
    rw [operands, Sight.AreOperands]
    refine (operand_judges e h).bind fun id t _ hsize => ?_
    exact (operands_judges rest (h.mono hsize)).bind_passes fun ids => passes_pure _

end

theorem callInto_judges (h : Shows ctx vars s v) (results : List NodeId) (name : String)
    (args : List Node) (loc : Loc) :
    Judges S (callInto ctx vars results name args loc) s
      (v.Admits name args.length results.length ∧ v.AreOperands args) fun _ _ => True := by
  refine (callee_judges h name args.length results.length loc).bind ?_
  rintro target t rfl _
  exact (operands_judges args h).bind_passes fun ids =>
    passes_deliverAll ctx target name ids results loc

theorem assignOne_judges (h : Shows ctx vars s v) (target : NodeId) (loc : Loc)
    (hcall : ¬ value.IsCall) :
    Judges S (assignOne ctx vars target loc value) s (v.IsOperand value) fun _ _ => True := by
  cases value with
  | literal value literalLoc =>
    rw [assignOne, Sight.IsOperand]
    exact (literalWord_judges value literalLoc s).bind_passes fun word => passes_define _
  | identifier name nameLoc =>
    rw [assignOne, Sight.IsOperand]
    exact (resolveName_judges h name nameLoc).bind_passes fun source =>
      (passes_addEdge ctx source target).bind fun _ => passes_define _
  | call => exact absurd trivial hcall
  | _ => exact judges_reject id ⟨rfl, rfl⟩

theorem gives_iff (hcall : ¬ value.IsCall) (count : Nat) :
    v.Gives count value ↔ count = 1 ∧ v.IsOperand value := by
  cases value with
  | call => exact absurd trivial hcall
  | _ => exact Iff.rfl

theorem assign_singleton (hcall : ¬ value.IsCall) (target : NodeId) (loc : Loc) :
    assign ctx vars [target] loc value = assignOne ctx vars target loc value := by
  cases value with
  | call => exact absurd trivial hcall
  | _ => rfl

theorem assign_of_length_ne_one (hcall : ¬ value.IsCall) {targets : List NodeId}
    (hlength : targets.length ≠ 1) (loc : Loc) :
    assign ctx vars targets loc value = reject
      { cause := .arityMismatch "assignment" "values" targets.length 1, loc := some loc } := by
  cases value with
  | call => exact absurd trivial hcall
  | _ =>
    match targets with
    | [_] => exact absurd rfl hlength
    | [] | _ :: _ :: _ => rfl

/-- An assignment goes through if and only if there are as many values as targets. -/
theorem assign_judges (h : Shows ctx vars s v) (targets : List NodeId) (loc : Loc) (value : Node) :
    Judges S (assign ctx vars targets loc value) s (v.Gives targets.length value)
      fun _ _ => True := by
  by_cases hcall : value.IsCall
  · cases value with
    | call name args callLoc => exact callInto_judges h targets name args callLoc
    | _ => exact hcall.elim
  · refine Judges.congr ?_ (gives_iff hcall targets.length)
    by_cases hlength : targets.length = 1
    · obtain ⟨target, rfl⟩ := List.length_eq_one_iff.mp hlength
      rw [assign_singleton hcall]
      exact (assignOne_judges h target loc hcall).congr ⟨And.right, And.intro rfl⟩
    · rw [assign_of_length_ne_one hcall hlength]
      exact judges_reject (fun hgives => hlength hgives.1) ⟨rfl, rfl⟩

end Expressions

section Functions

variable {ctx : Context} {vars : Variables} {s : WalkState} {v w : Sight} {S : Missing → Prop}

theorem signatures_eq (items : List Node) :
    signatures items = (definedFunctions items).map (·.signature) := by
  induction items with
  | nil => rfl
  | cons item rest ih =>
    cases item with
    | function => exact congrArg (_ :: ·) ih
    | _ => exact ih

/-- Whether a function is well formed depends on the functions around it alone. -/
theorem isStatement_definition_congr (h : v.functions = w.functions) (e : FunctionEntry) :
    v.IsStatement e.definition ↔ w.IsStatement e.definition := by
  simp only [FunctionEntry.definition, Sight.IsStatement, Sight.inside, h]

theorem introduces_cons (f : Signature) (fs : List Signature) :
    v.Introduces (f :: fs) ↔ (∀ other ∈ v.functions, other.name ≠ f.name) ∧
      Builtin.lookup? f.name = none ∧ (v.defining [f]).Introduces fs := by
  constructor
  · intro h
    obtain ⟨hname, hdistinct⟩ := List.nodup_cons.mp h.distinct
    obtain ⟨hunseen, hrest⟩ := List.forall_mem_cons.mp h.unseen
    obtain ⟨hbuiltin, hbuiltins⟩ := List.forall_mem_cons.mp h.isNoBuiltin
    refine ⟨hunseen, hbuiltin, hdistinct, fun g hg => ?_, hbuiltins⟩
    refine List.forall_mem_cons.mpr ⟨fun heq => hname ?_, hrest g hg⟩
    exact List.mem_map.mpr ⟨g, hg, heq.symm⟩
  · rintro ⟨hunseen, hbuiltin, h⟩
    refine ⟨List.nodup_cons.mpr ⟨fun hmem => ?_, h.distinct⟩, ?_, ?_⟩
    · obtain ⟨g, hg, heq⟩ := List.mem_map.mp hmem
      exact h.unseen g hg f List.mem_cons_self heq.symm
    · refine List.forall_mem_cons.mpr ⟨hunseen, fun g hg other hother => ?_⟩
      exact h.unseen g hg other (List.mem_cons_of_mem _ hother)
    · exact List.forall_mem_cons.mpr ⟨hbuiltin, h.isNoBuiltin⟩

/-- While functions are bound, those of the frame so far are seen as well. -/
theorem bindFunctions_judges (entries : List FunctionEntry) {frame : FunctionFrame}
    (hw : ∀ name, (∀ f ∈ w.functions, f.name ≠ name) ↔
      (∀ e ∈ frame, e.name ≠ name) ∧ ctx.function? name = none) :
    Judges S (bindFunctions ctx frame entries) s (w.Introduces (entries.map (·.signature)))
      fun _ _ => w.Introduces (entries.map (·.signature)) := by
  induction entries generalizing frame s w with
  | nil =>
    have hnone : w.Introduces [] :=
      ⟨List.nodup_nil, List.forall_mem_nil _, List.forall_mem_nil _⟩
    exact judges_pure hnone hnone
  | cons e rest ih =>
    have hduplicate : (∀ f ∈ w.functions, f.name ≠ e.name) ↔
        ((frame.find? (·.name = e.name)).isNone && (ctx.function? e.name).isNone) = true := by
      rw [hw, Bool.and_eq_true, Option.isNone_iff_eq_none, Option.isNone_iff_eq_none,
        List.find?_eq_none]
      simp
    have hbuiltin : Builtin.lookup? e.name = none ↔ (!Builtin.isBuiltin e.name) = true := by
      rw [Builtin.isBuiltin, Bool.not_eq_true', Option.isSome_eq_false_iff,
        Option.isNone_iff_eq_none]
    have hcons := introduces_cons (v := w) e.signature (rest.map (·.signature))
    refine Judges.congr ?_ hcons
    refine (judges_require hduplicate ⟨rfl, rfl⟩).bind ?_
    rintro _ t ⟨rfl, hunseen⟩ _
    refine (judges_require hbuiltin (Malformation.isStructural _ _)).bind ?_
    rintro _ t ⟨rfl, hnone⟩ _
    let scope := uniqueScopeName t.scopeNames ctx.scope e.name
    have hnext : ∀ name, (∀ f ∈ (w.defining [e.signature]).functions, f.name ≠ name) ↔
        (∀ e' ∈ frame ++ [{ e with scope }], e'.name ≠ name) ∧ ctx.function? name = none := by
      intro name
      rw [List.forall_mem_append, List.forall_mem_singleton, and_right_comm, ← hw, and_comm]
      exact List.forall_mem_cons
    have hrest := ih (s := { t with scopeNames := scope :: t.scopeNames }) hnext
    exact hrest.imp fun _ _ h => hcons.mpr ⟨hunseen, hnone, h⟩

theorem seen_eq_of_named {entries : List FunctionEntry} {frame : FunctionFrame}
    (h : List.Forall₂ FunctionEntry.IsNamed entries frame) :
    frame.map (·.signature) = entries.map (·.signature) := by
  induction h with
  | nil => rfl
  | cons hnamed _ ih => rw [List.map_cons, List.map_cons, ih, hnamed]; rfl

theorem areUnique_defining {fs : List Signature} (h : AreUnique v.functions)
    (hfs : v.Introduces fs) : AreUnique (v.defining fs).functions :=
  ⟨hfs.nodup h.distinct, List.forall_mem_append.mpr ⟨hfs.isNoBuiltin, h.isNoBuiltin⟩⟩

theorem lacksOnly_definedFunctions {items : List Node} (h : ∀ item ∈ items, item.LacksOnly S) :
    ∀ e ∈ definedFunctions items, e.body.LacksOnly S := by
  induction items with
  | nil => exact List.forall_mem_nil _
  | cons item rest ih =>
    obtain ⟨hitem, hrest⟩ := List.forall_mem_cons.mp h
    cases item with
    | function name params returns body loc =>
      exact List.forall_mem_cons.mpr ⟨hitem.part List.mem_cons_self, ih hrest⟩
    | _ => exact ih hrest

/-- To enter a block decides whether it may define its functions, which are queued. -/
theorem enter_judges (h : Shows ctx vars s v) {items : List Node}
    (hitems : ∀ item ∈ items, item.LacksOnly S) :
    Judges S (enter ctx items) s (v.Introduces (signatures items) ∧
        ∀ e ∈ definedFunctions items, (v.defining (signatures items)).IsStatement e.definition)
      fun inner t => Shows inner vars t (v.defining (signatures items)) := by
  have hframe : ∀ name, (∀ f ∈ v.functions, f.name ≠ name) ↔
      (∀ e ∈ ([] : FunctionFrame), e.name ≠ name) ∧ ctx.function? name = none := by
    intro name
    rw [h.function?_eq_none]
    simp
  have hbind := (bindFunctions_judges (s := s) (S := S) (definedFunctions items) hframe).ran
  rw [← signatures_eq] at hbind
  refine hbind.bind ?_
  rintro frame t ⟨hfs, hrun⟩ _
  obtain ⟨added, names, rfl, hnamed, rfl, hnames⟩ := bindFunctions_eq_ok _ hrun
  have hseen : (v.defining (signatures items)).functions = seen (frame :: ctx.functions) := by
    rw [Sight.defining, h.functions, signatures_eq, ← seen_eq_of_named hnamed, seen, seen,
      List.flatten_cons, List.map_append]
  have hunique := areUnique_defining h.unique hfs
  refine ⟨⟨queueOf ctx frame, rfl, ?_, ?_⟩, Nat.le_refl _, ?_⟩
  · intro f hf
    obtain ⟨e, he, rfl⟩ := List.mem_map.mp hf
    obtain ⟨e', he', hname⟩ := exists_of_mem_right hnamed he
    have hbody : e.body = e'.body := by rw [hname]
    exact ⟨(hnames.fresh e he).2, hseen ▸ hunique,
      hbody ▸ lacksOnly_definedFunctions hitems e' he'⟩
  · -- a function is queued under its scope name, which is not part of its definition
    rw [queueOf, List.forall_mem_map]
    have hsame (e : FunctionEntry) : PendingFunction.IsFine ⟨e, frame :: ctx.functions⟩ ↔
        (v.defining (signatures items)).IsStatement e.definition :=
      isStatement_definition_congr hseen.symm e
    simp only [hsame]
    constructor
    · intro hall e he
      obtain ⟨e', he', hname⟩ := exists_of_mem_right hnamed he
      rw [hname]
      exact hall e' he'
    · intro hall e' he'
      obtain ⟨e, he, hname⟩ := exists_of_mem_left hnamed he'
      have := hall e he
      rw [hname] at this
      exact this
  · exact ⟨hseen, h.names, h.inLoop, h.inFunction, hunique, h.distinct, h.live⟩

end Functions

section Simple

variable {ctx : Context} {vars : Variables} {s : WalkState} {v : Sight} {S : Missing → Prop}

theorem initialise_judges (h : Shows ctx vars s v) (ids : List NodeId) (loc : Loc)
    (value : Option Node) :
    Judges S (initialise ctx vars ids loc value) s (∀ e ∈ value, v.Gives ids.length e)
      fun _ _ => True := by
  cases value with
  | none => exact (passes_defineAll _).judges fun e he => absurd he (Option.not_mem_none e)
  | some value =>
    exact (assign_judges h ids loc value).congr
      ⟨fun hall => hall value rfl, fun hgives e he => Option.some.inj he ▸ hgives⟩

theorem ne_nil_iff {α : Type} {l : List α} : l ≠ [] ↔ (!l.isEmpty) = true := by
  cases l <;> simp

theorem declaration_judges (h : Shows ctx vars s v) (names : List String) (value : Option Node)
    (loc : Loc) :
    Judges S (declaration ctx vars names value loc) s (v.IsStatement (.declaration names value loc))
      fun after t => Shows ctx after t (v.declaring names) := by
  have hparts : v.IsStatement (.declaration names value loc) ↔
      names ≠ [] ∧ names.Nodup ∧ (names.Nodup ∧ ∀ n ∈ names, v.IsFree n) ∧
        ∀ e ∈ value, v.Gives names.length e := by
    rw [Sight.IsStatement]
    tauto
  refine Judges.congr ?_ hparts
  refine (judges_require ne_nil_iff (Malformation.isStructural _ _)).bind ?_
  rintro _ t ⟨rfl, _⟩ _
  refine (judges_require decide_eq_true_iff.symm (Malformation.isStructural _ _)).bind ?_
  rintro _ t ⟨rfl, _⟩ _
  refine (declareAll_judges loc names h).bind ?_
  rintro ⟨after, ids⟩ u ⟨hshows, hlength⟩ hsize
  rw [← hlength]
  exact (initialise_judges (h.mono hsize) ids loc value).bind_pure fun _ w _ hsize' =>
    hshows.mono hsize'

theorem assignment_judges (h : Shows ctx vars s v) (names : List String) (value : Node)
    (loc : Loc) :
    Judges S (assignment ctx vars names value loc) s (v.IsStatement (.assignment names value loc))
      fun _ _ => True := by
  have hparts : v.IsStatement (.assignment names value loc) ↔
      names ≠ [] ∧ (∀ name ∈ names, name ∈ v.locals) ∧ names.Nodup ∧
        v.Gives names.length value := by
    rw [Sight.IsStatement]
    tauto
  refine Judges.congr ?_ hparts
  refine (judges_require ne_nil_iff (Malformation.isStructural _ _)).bind ?_
  rintro _ t ⟨rfl, _⟩ _
  refine (resolveNames_judges h loc names).bind ?_
  rintro targets t ⟨rfl, htargets⟩ _
  have hnodup := (h.nodup_iff htargets).trans decide_eq_true_iff.symm
  refine (judges_require hnodup (Malformation.isStructural _ _)).bind ?_
  rintro _ t ⟨rfl, _⟩ _
  have hgrows : Passes (modifyGraph fun g =>
      targets.foldl (fun g id => g.addEdge ctx.scope ctx.block id) g) :=
    passes_modifyGraph fun g => Nat.le_of_eq (size_foldl_addEdge ctx.scope _ _ targets g).symm
  rw [htargets.length_eq]
  exact hgrows.bind_judges fun _ u hsize => assign_judges (h.mono hsize) targets loc value

theorem expressionStatement_judges (h : Shows ctx vars s v) (loc : Loc) (value : Node) :
    Judges S (expressionStatement ctx vars loc value) s (v.Gives 0 value) fun _ _ => True := by
  cases value with
  | call name args callLoc => exact callInto_judges h [] name args callLoc
  | _ => exact judges_reject (fun hgives => Nat.zero_ne_one hgives.1) (Malformation.isStructural _ _)

theorem loopJump_judges (h : Shows ctx vars s v) (keyword : String) (loc : Loc) :
    Judges S (loopJump ctx keyword loc) s (v.inLoop = true) fun _ _ => True := by
  rw [h.inLoop]
  unfold loopJump
  cases ctx.loop with
  | some block => exact (passes_jump ctx block).judges rfl
  | none => exact judges_reject Bool.false_ne_true (Malformation.isStructural _ _)

/-- The cases of a switch have words, no two the same and none of them known
before. -/
def HaveNewWords (known : List Nat) (arms : List Node) : Prop :=
  ∃ words : List Nat, arms.map Node.word? = words.map some ∧ words.Nodup ∧ ∀ w ∈ words, w ∉ known

theorem haveNewWords_cons (known : List Nat) (arm : Node) (rest : List Node) :
    HaveNewWords known (arm :: rest) ↔ (∃ word, arm.word? = some word ∧ word ∉ known) ∧
      ∀ word, arm.word? = some word → HaveNewWords (word :: known) rest := by
  constructor
  · rintro ⟨words, hwords, hnodup, hnew⟩
    cases words with
    | nil => cases hwords
    | cons word words =>
      obtain ⟨hword, hrest⟩ := List.cons.inj hwords
      obtain ⟨hfirst, hothers⟩ := List.forall_mem_cons.mp hnew
      obtain ⟨hmem, hdistinct⟩ := List.nodup_cons.mp hnodup
      refine ⟨⟨word, hword, hfirst⟩, fun other hother => ⟨words, hrest, hdistinct, ?_⟩⟩
      cases hword.symm.trans hother
      intro w hw hknown
      rcases List.mem_cons.mp hknown with rfl | hknown
      · exact hmem hw
      · exact hothers w hw hknown
  · rintro ⟨⟨word, hword, hnew⟩, hrest⟩
    obtain ⟨words, hwords, hnodup, hothers⟩ := hrest word hword
    refine ⟨word :: words, ?_, ?_, ?_⟩
    · rw [List.map_cons, List.map_cons, hword, hwords]
    · refine List.nodup_cons.mpr ⟨fun hmem => ?_, hnodup⟩
      exact hothers word hmem List.mem_cons_self
    · refine List.forall_mem_cons.mpr ⟨hnew, fun w hw hknown => ?_⟩
      exact hothers w hw (List.mem_cons_of_mem _ hknown)

/-- The value of a case is taken if it is a word that no case before has. -/
theorem armValue_judges (known : List Nat) (value body : Node) (loc : Loc) (s : WalkState) :
    Judges S (armValue known loc value) s
      (∃ word, (Node.caseArm value body loc).word? = some word ∧ word ∉ known)
      fun word t => t = s ∧ (Node.caseArm value body loc).word? = some word := by
  cases value with
  | literal value literalLoc =>
    have hword (word : Nat) : (Node.caseArm (.literal value literalLoc) body loc).word? = some word ↔
        value.word? = .ok word := by
      rw [Node.word?]
      cases value.word? <;> simp [Except.toOption]
    have hparts : (∃ word, (Node.caseArm (.literal value literalLoc) body loc).word? = some word ∧
        word ∉ known) ↔ value.Fits ∧ ∀ word, value.word? = .ok word → word ∉ known := by
      simp only [hword, Literal.fits_iff]
      constructor
      · rintro ⟨word, hok, hnew⟩
        exact ⟨⟨word, hok⟩, fun other hother => Except.ok.inj (hok.symm.trans hother) ▸ hnew⟩
      · rintro ⟨⟨word, hok⟩, hnew⟩
        exact ⟨word, hok, hnew word hok⟩
    refine Judges.congr ?_ hparts
    refine (literalWord_judges value literalLoc s).bind ?_
    rintro word t ⟨rfl, hok⟩ _
    have hnew : (∀ other, value.word? = .ok other → other ∉ known) ↔
        (!known.contains word) = true := by
      simp [hok]
    refine (judges_require hnew (Malformation.isStructural _ _)).bind_pure ?_
    rintro _ u ⟨rfl, _⟩ _
    exact ⟨rfl, (hword word).mpr hok⟩
  | _ =>
    refine judges_reject ?_ (Malformation.isStructural _ _)
    rintro ⟨word, hword, _⟩
    cases hword

/-- An arm that is no case never passes for one. -/
theorem strayArm_judges {P : Prop} {Q : Unit → WalkState → Prop} {selector : NodeId}
    {known : List Nat} (arm : Node) (harm : ∀ what ∈ arm.unfitArm?, S what) (hP : ¬ P)
    (hcase : ∀ value body loc, arm ≠ .caseArm value body loc) :
    Judges S (strayArm ctx selector known arm) s P Q := by
  have hbody (value : Node) (loc : Loc) {failure : Failure} (hfailure : failure.IsDue S) :
      Judges S (do
        let _ ← armValue known loc value
        let _ ← newGoverned ctx "case" selector loc
        throw failure) s P Q := by
    have hnot : P ↔ (∃ word, (Node.caseArm value value loc).word? = some word ∧ word ∉ known) ∧
        False := iff_of_false hP fun h => h.2
    refine Judges.congr ?_ hnot
    refine (armValue_judges known value value loc s).bind fun _ t _ _ => ?_
    exact (passes_newGoverned ctx "case" selector loc).bind_judges fun _ _ _ =>
      judges_throw id hfailure
  cases arm with
  | caseArm value body loc => exact absurd rfl (hcase value body loc)
  | literal value loc => exact judges_reject hP (Malformation.isStructural _ _)
  | declaration names value loc =>
    cases value with
    | none => exact judges_reject hP (Malformation.isStructural _ _)
    | some value => exact hbody value loc (harm _ rfl)
  | assignment names value loc => exact hbody value loc (harm _ rfl)
  | _ => exact judges_throw hP (harm _ rfl)

end Simple

/-- A statement is well formed as far as its own scope goes: what it defines is
looked at later. -/
def IsOwn (v : Sight) : Node → Prop
  | .function .. => True
  | item => v.IsStatement item

def AreOwn (v : Sight) : List Node → Prop
  | [] => True
  | item :: rest => IsOwn v item ∧ AreOwn (v.declaring item.declares) rest

/-- Statements are well formed if they are so in their scope and their functions are. -/
theorem areStatements_iff (v : Sight) (items : List Node) :
    v.AreStatements items ↔
      AreOwn v items ∧ ∀ e ∈ definedFunctions items, v.IsStatement e.definition := by
  induction items generalizing v with
  | nil => exact iff_of_true trivial ⟨trivial, List.forall_mem_nil _⟩
  | cons item rest ih =>
    have hrest (e : FunctionEntry) :
        (v.declaring item.declares).IsStatement e.definition ↔ v.IsStatement e.definition :=
      isStatement_definition_congr rfl e
    rw [Sight.AreStatements, ih, AreOwn]
    simp only [hrest]
    cases item with
    | function name params returns body loc =>
      rw [definedFunctions, List.forall_mem_cons, IsOwn, true_and]
      exact and_left_comm
    | _ => exact and_assoc.symm

/-- A block: its functions are queued, then its statements follow. -/
theorem isScope_iff (v : Sight) (items : List Node) :
    v.IsScope items ↔ (v.Introduces (signatures items) ∧
        ∀ e ∈ definedFunctions items, (v.defining (signatures items)).IsStatement e.definition) ∧
      AreOwn (v.defining (signatures items)) items := by
  rw [Sight.IsScope, areStatements_iff, and_assoc, and_comm (a := AreOwn _ _)]

section Statements

variable {α : Type} {ctx : Context} {vars : Variables} {s : WalkState} {v : Sight}
  {S : Missing → Prop}

theorem Shows.under (h : Shows ctx vars s v) (block : NodeId) :
    Shows { ctx with block } vars s v :=
  ⟨h.functions, h.names, h.inLoop, h.inFunction, h.unique, h.distinct, h.live⟩

theorem Shows.looping (h : Shows ctx vars s v) (block : NodeId) :
    Shows { ctx with block, loop := some block } vars s v.looping :=
  ⟨h.functions, h.names, rfl, h.inFunction, h.unique, h.distinct, h.live⟩

/-- The functions of a block are no longer seen behind it, its variables may be. -/
theorem Shows.leave {inner : Context} {after : Variables} {t : WalkState} {names : List String}
    {fs : List Signature} (h : Shows ctx vars s v)
    (hinner : Shows inner after t ((v.defining fs).declaring names)) :
    Shows ctx after t (v.declaring names) :=
  ⟨h.functions, hinner.names, h.inLoop, h.inFunction, h.unique, hinner.distinct, hinner.live⟩

/-- The statements of a block, and what is done after it. -/
theorem scope_judges {items : List Node} {k : Variables → Walk α} {P : Prop}
    {R : α → WalkState → Prop} (h : Shows ctx vars s v)
    (hlacks : ∀ item ∈ items, item.LacksOnly S)
    (hitems : ∀ inner t, Shows inner vars t (v.defining (signatures items)) →
      Judges S (statements inner vars items) t (AreOwn (v.defining (signatures items)) items)
        fun after u => Shows inner after u
          ((v.defining (signatures items)).declaring (items.flatMap Node.declares)))
    (hk : ∀ after u, Shows ctx after u (v.declaring (items.flatMap Node.declares)) →
      s.graph.size ≤ u.graph.size → Judges S (k after) u P R) :
    Judges S (do
        let inner ← enter ctx items
        let after ← statements inner vars items
        k after) s (v.IsScope items ∧ P) R := by
  refine Judges.congr ?_ ((and_congr_left' (isScope_iff v items)).trans and_assoc)
  refine (enter_judges h hlacks).bind fun inner t hinner hsize => ?_
  refine (hitems inner t hinner).bind fun after u hafter hsize' => ?_
  exact hk after u (h.leave hafter) (hsize.trans hsize')

mutual

/-- The walk of a statement decides whether it is well formed in its own scope. -/
theorem statement_judges (item : Node) {ctx : Context} {vars : Variables} {s : WalkState}
    {v : Sight} (h : Shows ctx vars s v) (hlacks : item.LacksOnly S) :
    Judges S (statement ctx vars item) s (IsOwn v item)
      fun after t => Shows ctx after t (v.declaring item.declares) := by
  cases item with
  | declaration names value loc => exact declaration_judges h names value loc
  | assignment names value loc =>
    exact (assignment_judges h names value loc).bind_pure fun _ t _ hsize => h.mono hsize
  | expression value loc =>
    exact (expressionStatement_judges h loc value).bind_pure fun _ t _ hsize => h.mono hsize
  | branch condition body loc =>
    refine (operand_judges condition h).bind fun id t _ hsize => ?_
    refine (passes_newGoverned ctx "if" id loc).bind_judges fun block u hsize' => ?_
    have hshows := h.mono (hsize.trans hsize')
    have hbody := governed_judges body (hshows.under block) (hlacks.part (by simp [Node.parts]))
    exact hbody.bind_pure fun _ w _ hsize'' => hshows.mono hsize''
  | switch selector arms fallback loc =>
    have hcases : (arms ≠ [] ∨ fallback ≠ none) ↔ (!arms.isEmpty || fallback.isSome) = true := by
      rw [Bool.or_eq_true, ← ne_nil_iff, Option.isSome_iff_ne_none]
    have hparts : IsOwn v (.switch selector arms fallback loc) ↔
        (arms ≠ [] ∨ fallback ≠ none) ∧ v.IsOperand selector ∧
          (HaveNewWords [] arms ∧ v.AreArms arms) ∧ v.IsFallback fallback := by
      change v.IsStatement (.switch selector arms fallback loc) ↔ _
      rw [Sight.IsStatement, HaveDistinctWords, HaveNewWords]
      simp [and_assoc]
    refine Judges.congr ?_ hparts
    refine (judges_require hcases (Malformation.isStructural _ _)).bind ?_
    rintro _ t ⟨rfl, _⟩ _
    refine (operand_judges selector h).bind fun id u _ hsize => ?_
    have harms := switchArms_judges arms id [] (h.mono hsize)
      (fun arm harm => hlacks.part (by simp [Node.parts, harm]))
      (fun arm harm what hwhat => hlacks what (.here (List.mem_filterMap.mpr ⟨arm, harm, hwhat⟩)))
    refine harms.bind fun _ w _ hsize' => ?_
    have hshows := h.mono (hsize.trans hsize')
    have hfallback := switchFallback_judges fallback id loc hshows
      (fun body hbody => hlacks.part (by simp [Node.parts, Option.mem_def.mp hbody]))
    exact hfallback.bind_pure fun _ x _ hsize'' => hshows.mono hsize''
  | loop init condition post body loc =>
    have hinit := loopInit_judges init h (hlacks.part (by simp [Node.parts]))
      (fun what hwhat => hlacks what (.here (Option.mem_toList.mpr hwhat)))
    refine hinit.bind fun after t hshows hsize => ?_
    refine (operand_judges condition hshows).bind fun id u _ hsize' => ?_
    refine (passes_newGoverned ctx "for" id loc).bind_judges fun block w hsize'' => ?_
    have hbody := (hshows.mono (hsize'.trans hsize'')).looping block
    refine (governed_judges body hbody (hlacks.part (by simp [Node.parts]))).bind
      fun _ x _ hsize₃ => ?_
    refine (governed_judges post (hbody.mono hsize₃)
      (hlacks.part (by simp [Node.parts]))).bind_pure fun _ y _ hsize₄ => ?_
    exact h.mono (hsize.trans (hsize'.trans (hsize''.trans (hsize₃.trans hsize₄))))
  | block items loc =>
    have hitems : ∀ item ∈ items, item.LacksOnly S := fun item hitem => hlacks.part hitem
    refine Judges.congr (scope_judges (P := True) h hitems
      (fun inner t hinner => statements_judges items hinner hitems)
      fun after t hshows hsize => ?_) (iff_of_eq (and_true _).symm)
    exact judges_pure trivial (h.mono hsize)
  | function => exact judges_pure trivial h
  | breakOut loc =>
    exact (loopJump_judges h "break" loc).bind_pure fun _ t _ hsize => h.mono hsize
  | continueOn loc =>
    exact (loopJump_judges h "continue" loc).bind_pure fun _ t _ hsize => h.mono hsize
  | leave loc =>
    have hleave : v.inFunction = true ↔ (ctx.scope != mainScope) = true := by rw [h.inFunction]
    refine Judges.congr ?_ (iff_of_eq (and_true _).symm)
    refine (judges_require hleave (Malformation.isStructural _ _)).bind ?_
    rintro _ t ⟨rfl, _⟩ _
    exact ((passes_jump ctx ctx.root).judges trivial).bind_pure fun _ u _ hsize => h.mono hsize
  | _ => exact judges_reject id ⟨rfl, rfl⟩

theorem statements_judges (items : List Node) {ctx : Context} {vars : Variables} {s : WalkState}
    {v : Sight} (h : Shows ctx vars s v) (hlacks : ∀ item ∈ items, item.LacksOnly S) :
    Judges S (statements ctx vars items) s (AreOwn v items)
      fun after t => Shows ctx after t (v.declaring (items.flatMap Node.declares)) := by
  cases items with
  | nil => exact judges_pure trivial h
  | cons item rest =>
    rw [AreOwn, List.flatMap_cons]
    obtain ⟨hitem, hrest⟩ := List.forall_mem_cons.mp hlacks
    refine (statement_judges item h hitem).bind fun after t hafter _ => ?_
    exact (statements_judges rest hafter hrest).imp fun _ _ hlast => hlast.declaring_append _ _

theorem governed_judges (body : Node) {ctx : Context} {vars : Variables} {s : WalkState}
    {v : Sight} (h : Shows ctx vars s v) (hlacks : body.LacksOnly S) :
    Judges S (governed ctx vars body) s (v.IsBlock body) fun _ _ => True := by
  cases body with
  | block items loc =>
    have hitems : ∀ item ∈ items, item.LacksOnly S := fun item hitem => hlacks.part hitem
    refine Judges.congr (scope_judges (P := True) h hitems
      (fun inner t hinner => statements_judges items hinner hitems)
      fun after t hshows hsize => ?_) (iff_of_eq (and_true _).symm)
    exact judges_pure trivial trivial
  | _ => exact judges_reject id ⟨rfl, rfl⟩

theorem loopInit_judges (init : Node) {ctx : Context} {vars : Variables} {s : WalkState}
    {v : Sight} (h : Shows ctx vars s v) (hlacks : init.LacksOnly S)
    (hinit : ∀ what ∈ init.unfitInit?, S what) :
    Judges S (loopInit ctx vars init) s (v.IsInit init)
      fun after t => Shows ctx after t (v.declaring (init.items.flatMap Node.declares)) := by
  cases init with
  | block items loc | program name items loc =>
    have hitems : ∀ item ∈ items, item.LacksOnly S := fun item hitem => hlacks.part hitem
    rw [loopInit]
    refine Judges.congr ?_ (isScope_iff v items)
    refine (enter_judges h hitems).bind fun inner t hinner _ => ?_
    exact (statements_judges items hinner hitems).imp fun after u hafter => h.leave hafter
  | _ => exact judges_throw id (hinit _ rfl)

theorem switchArms_judges (arms : List Node) (selector : NodeId) (known : List Nat) {ctx : Context}
    {vars : Variables} {s : WalkState} {v : Sight} (h : Shows ctx vars s v)
    (hlacks : ∀ arm ∈ arms, arm.LacksOnly S)
    (hfit : ∀ arm ∈ arms, ∀ what ∈ arm.unfitArm?, S what) :
    Judges S (switchArms ctx vars selector known arms) s (HaveNewWords known arms ∧ v.AreArms arms)
      fun _ _ => True := by
  cases arms with
  | nil =>
    refine judges_pure ⟨⟨[], rfl, List.nodup_nil, ?_⟩, trivial⟩ trivial
    exact List.forall_mem_nil _
  | cons arm rest =>
    obtain ⟨hlacksArm, hlacksRest⟩ := List.forall_mem_cons.mp hlacks
    obtain ⟨hfitArm, hfitRest⟩ := List.forall_mem_cons.mp hfit
    cases arm with
    | caseArm value body loc =>
      have hparts : HaveNewWords known (.caseArm value body loc :: rest) ∧
            v.AreArms (.caseArm value body loc :: rest) ↔
          (∃ word, (Node.caseArm value body loc).word? = some word ∧ word ∉ known) ∧
            v.IsBlock body ∧ (∀ word, (Node.caseArm value body loc).word? = some word →
              HaveNewWords (word :: known) rest) ∧ v.AreArms rest := by
        rw [haveNewWords_cons, Sight.AreArms]
        tauto
      refine Judges.congr ?_ hparts
      refine (armValue_judges known value body loc s).bind ?_
      rintro word t ⟨rfl, hword⟩ _
      refine (passes_newGoverned ctx "case" selector loc).bind_judges fun block u hsize => ?_
      refine (governed_judges body ((h.mono hsize).under block)
        (hlacksArm.part List.mem_cons_self)).bind fun _ w _ hsize' => ?_
      refine (switchArms_judges rest selector (word :: known)
        (h.mono (hsize.trans hsize')) hlacksRest hfitRest).congr ?_
      refine and_congr_left fun _ => ⟨fun hall => hall word hword, fun hnew other hother => ?_⟩
      exact Option.some.inj (hword.symm.trans hother) ▸ hnew
    | _ => exact strayArm_judges _ hfitArm (fun h => h.2) fun _ _ _ heq => by cases heq

theorem switchFallback_judges (fallback : Option Node) (selector : NodeId) (loc : Loc)
    {ctx : Context} {vars : Variables} {s : WalkState} {v : Sight} (h : Shows ctx vars s v)
    (hlacks : ∀ body ∈ fallback, body.LacksOnly S) :
    Judges S (switchFallback ctx vars selector loc fallback) s (v.IsFallback fallback)
      fun _ _ => True := by
  cases fallback with
  | none => exact judges_pure trivial trivial
  | some body =>
    refine (passes_newGoverned ctx "default" selector loc).bind_judges fun block t hsize => ?_
    exact governed_judges body ((h.mono hsize).under block) (hlacks body rfl)

end

end Statements

section Scopes

variable {ctx : Context} {vars : Variables} {s t : WalkState} {v : Sight} {S : Missing → Prop}

theorem passes_takeRecord (scope : String) : Passes (takeRecord scope) :=
  fun s => ⟨_, _, takeRecord_eq scope s, rfl, Nat.le_refl _⟩

/-- One name of a function's header, with the others to come. `note` adds the
variable to the parameters or to the return variables. -/
theorem header_judges {name : String} {rest : List String} {loc : Loc} {note : NodeId → Walk Unit}
    {definition : NodeId → Definition} {k : NodeId → Walk Variables} (h : Shows ctx vars s v)
    (hnote : ∀ id, Passes (note id))
    (hk : ∀ id u, Shows ctx ((name, id) :: vars) u (v.declaring [name]) →
      Judges S (k id) u (rest.Nodup ∧ ∀ n ∈ rest, (v.declaring [name]).IsFree n)
        fun after t => Shows ctx after t ((v.declaring [name]).declaring rest)) :
    Judges S (do
        let id ← newLocal ctx vars name loc
        note id
        define (definition id)
        k id) s ((name :: rest).Nodup ∧ ∀ n ∈ name :: rest, v.IsFree n)
      fun after t => Shows ctx after t (v.declaring (name :: rest)) := by
  refine Judges.congr ?_ (free_cons name rest)
  refine (newLocal_judges h name loc).bind ?_
  rintro id t ⟨rfl, hsize⟩ _
  refine (hnote _).bind_judges fun _ u hsize' => ?_
  refine (passes_define _).bind_judges fun _ w hsize'' => ?_
  have hrest := hk _ w ((h.declaring hsize).mono (hsize'.trans hsize''))
  exact hrest.imp fun _ _ hlast => hlast.declaring_append [name] rest

theorem declareParams_judges (loc : Loc) (names : List String) (h : Shows ctx vars s v) :
    Judges S (declareParams ctx loc vars names) s (names.Nodup ∧ ∀ n ∈ names, v.IsFree n)
      fun after t => Shows ctx after t (v.declaring names) := by
  induction names generalizing vars s v with
  | nil => exact judges_pure ⟨List.nodup_nil, List.forall_mem_nil _⟩ h
  | cons name rest ih =>
    exact header_judges h (fun _ => passes_modifyGraph fun _ => Nat.le_refl _) fun _ _ => ih

theorem declareReturns_judges (loc : Loc) (names : List String) (h : Shows ctx vars s v) :
    Judges S (declareReturns ctx loc vars names) s (names.Nodup ∧ ∀ n ∈ names, v.IsFree n)
      fun after t => Shows ctx after t (v.declaring names) := by
  induction names generalizing vars s v with
  | nil => exact judges_pure ⟨List.nodup_nil, List.forall_mem_nil _⟩ h
  | cons name rest ih =>
    exact header_judges h (fun _ => passes_modifyGraph fun _ => Nat.le_refl _) fun _ _ => ih

/-- The outermost statements of a scope see no variables. -/
theorem openScope_judges (name : String) (functions : List FunctionFrame) (loc : Option Loc)
    (hunique : AreUnique (seen functions)) (s : WalkState) :
    Judges S (openScope name functions loc) s True fun ctx t =>
      Shows ctx [] t { functions := seen functions, inFunction := name != mainScope } := by
  refine judges_of_eq rfl rfl ?_ trivial ⟨rfl, fun name => Iff.rfl, rfl, rfl, hunique, ?_, ?_⟩
  · rw [Graph.size_addScope]
    exact Nat.le_succ _
  · exact List.nodup_nil
  · exact List.forall_mem_nil _

/-- The walk of a queued function decides whether it is well formed. -/
theorem walkFunction_judges {f : PendingFunction} (hf : f.IsQueued S) (s : WalkState) :
    Judges S (walkFunction f) s f.IsFine fun _ _ => True := by
  let v : Sight := { functions := seen f.visible, inFunction := true }
  have hv : v = { functions := seen f.visible, inFunction := f.entry.scope != mainScope } := by
    rw [bne_iff_ne.mpr hf.scope]
  have hparts : f.IsFine ↔
      True ∧ (f.entry.params.Nodup ∧ ∀ n ∈ f.entry.params, v.IsFree n) ∧
        (f.entry.returns.Nodup ∧ ∀ n ∈ f.entry.returns, (v.declaring f.entry.params).IsFree n) ∧
        (v.declaring (f.entry.params ++ f.entry.returns)).IsBlock f.entry.body := by
    rw [true_and, ← and_assoc, ← free_append]
    rw [PendingFunction.IsFine, FunctionEntry.definition, Sight.IsStatement, and_assoc]
    simp [Sight.inside, Sight.declaring, v]
  refine Judges.congr ?_ hparts
  refine (openScope_judges f.entry.scope f.visible (some f.entry.loc) hf.visible s).bind ?_
  intro ctx t hshows _
  rw [← hv] at hshows
  refine (declareParams_judges f.entry.loc f.entry.params hshows).bind fun vars u hparams _ => ?_
  refine (declareReturns_judges f.entry.loc f.entry.returns hparams).bind
    fun vars' w hreturns _ => ?_
  exact (governed_judges f.entry.body (hreturns.declaring_append _ _) hf.lacks).bind_passes
    fun _ => passes_takeRecord f.entry.scope

theorem walkMain_judges {items : List Node} (hitems : ∀ item ∈ items, item.LacksOnly S)
    (s : WalkState) :
    Judges S (walkMain items) s (Sight.IsScope {} items) fun _ _ => True := by
  have hunique : AreUnique (seen []) :=
    ⟨List.nodup_nil, List.forall_mem_nil _⟩
  refine Judges.congr ?_ (iff_of_eq ((true_and _).trans (and_true _)).symm)
  refine (openScope_judges mainScope [] none hunique s).bind fun ctx t hshows _ => ?_
  have hv : ({ functions := seen [], inFunction := mainScope != mainScope } : Sight) = {} := by
    rw [bne_self_eq_false]
    rfl
  rw [hv] at hshows
  refine scope_judges hshows hitems
    (fun inner u hinner => statements_judges items hinner hitems) fun after u _ _ => ?_
  exact (passes_takeRecord mainScope).judges trivial

theorem walkPending_of_nil {bound : Nat} (h : s.pending = []) :
    walkPending (bound + 1) s = .ok [] s := by
  rw [walkPending, bind_of_ok (m := get) (a := s) (t := s) rfl, h]
  rfl

theorem walkPending_of_cons {bound : Nat} {f : PendingFunction} {rest : List PendingFunction}
    (h : s.pending = f :: rest) :
    walkPending (bound + 1) s =
      (walkFunction f >>= fun r => walkPending bound >>= fun rs => pure (r :: rs))
        { s with pending := rest } := by
  rw [walkPending, bind_of_ok (m := get) (a := s) (t := s) rfl, h]
  rfl

/-- The walk along the queue decides whether all queued functions are well formed.
Every step takes one function off the queue for good, so a bound that counts the
functions nested in the queued ones is enough. -/
theorem walkPending_settles {done : List FunctionEntry} (bound : Nat) (h : Stands done s)
    (hqueued : ∀ f ∈ s.pending, f.IsQueued S) (hbound : queueWeight s.pending ≤ bound) :
    Settles S (walkPending bound) s (∀ f ∈ s.pending, f.IsFine) := by
  induction bound generalizing done s with
  | zero =>
    cases hpending : s.pending with
    | nil => exact settles_of_ok rfl (List.forall_mem_nil _)
    | cons f rest =>
      rw [hpending, queueWeight, List.map_cons, List.sum_cons] at hbound
      omega
  | succ bound ih =>
    cases hpending : s.pending with
    | nil =>
      exact settles_of_ok (walkPending_of_nil hpending) (List.forall_mem_nil _)
    | cons f rest =>
      rw [hpending] at hqueued hbound
      obtain ⟨hf, hrest⟩ := List.forall_mem_cons.mp hqueued
      refine settles_of_eq (walkPending_of_cons hpending) ?_
      refine (walkFunction_judges hf _).bind_settles (fun hall => hall f List.mem_cons_self) ?_
      intro r t new hrun hnew hqueued' hfine
      obtain ⟨hstands, _, _, _, hweight⟩ := walkFunction_spec h hpending hrun
      have hall : (∀ f ∈ t.pending, f.IsFine) ↔ ∀ g ∈ f :: rest, g.IsFine := by
        rw [hnew, List.forall_mem_append, List.forall_mem_cons, hfine, and_comm]
      rw [← hall]
      refine (ih hstands ?_ ?_).bind_pure
      · rw [hnew]
        exact List.forall_mem_append.mpr ⟨hrest, hqueued'⟩
      · rw [queueWeight, List.map_cons, List.sum_cons] at hbound
        rw [hweight, queueWeight]
        omega

/-- The walk over a program decides whether it is well formed. -/
theorem walkProgram_settles (program : Node) :
    Settles program.Lacks (walkProgram program) { graph := {} } program.IsWellFormed := by
  cases program with
  | program name items loc =>
    have hitems : ∀ item ∈ items, item.LacksOnly (Node.program name items loc).Lacks :=
      fun item hitem what hwhat => .inside hitem hwhat
    refine (walkMain_judges hitems _).bind_settles id ?_
    intro r t new hrun hnew hqueued hfine
    obtain ⟨hstands, _, _, hweight⟩ := walkMain_spec hrun
    have hpending : t.pending = new := hnew
    have hall : (∀ f ∈ t.pending, f.IsFine) ↔ Sight.IsScope {} items := by
      rw [hpending, hfine]
    rw [Node.IsWellFormed, ← hall]
    refine (walkPending_settles _ hstands ?_ (Nat.le_of_eq hweight)).bind_pure
    rw [hpending]
    exact hqueued
  | _ => exact ⟨id, rfl, rfl⟩

/-- A program whose walk goes through is well formed. -/
theorem isWellFormed_of_walkProgram {program : Node} {rs : List ScopeRecord}
    (h : walkProgram program { graph := {} } = .ok rs t) : program.IsWellFormed := by
  have hsettles := walkProgram_settles program
  rwa [Settles, h] at hsettles

end Scopes

/-- Collecting the flow graph decides whether a program is well formed. -/
theorem collect_decides (program : Node) :
    (∃ g, collect program = .ok g) ∧ program.IsWellFormed ∨
      ∃ failure, collect program = .error failure ∧ ¬ program.IsWellFormed ∧
        failure.IsDue program.Lacks := by
  have hsettles := walkProgram_settles program
  unfold Settles at hsettles
  unfold collect collectInto
  cases hrun : walkProgram program { graph := {} } with
  | ok records s =>
    rw [hrun] at hsettles
    exact Or.inl ⟨⟨_, rfl⟩, hsettles⟩
  | error failure s =>
    rw [hrun] at hsettles
    exact Or.inr ⟨failure, rfl, hsettles⟩

/-- A program has a flow graph if and only if it is well formed. What keeps it from
having one is a fault of its structure, unless a loop in it starts with a node that
has no statements or an arm of a switch in it is no case: then a field may be read
that is not there. -/
theorem accepts_iff_wellFormed (program : Node) :
    ((∃ g, collect program = .ok g) ↔ program.IsWellFormed) ∧
      (∀ fault, collect program = .error (.fault fault) →
        fault.kind = .structural ∧ fault.cause.code.kind = .structural) ∧
      ∀ what, collect program = .error (.missing what) → program.Lacks what := by
  rcases collect_decides program with ⟨⟨g, hg⟩, hwell⟩ | ⟨failure, hfailure, hnot, hdue⟩
  · refine ⟨iff_of_true ⟨g, hg⟩ hwell, fun fault heq => ?_, fun what heq => ?_⟩
    · cases hg.symm.trans heq
    · cases hg.symm.trans heq
  · refine ⟨iff_of_false ?_ hnot, fun fault heq => ?_, fun what heq => ?_⟩
    · rintro ⟨g, hg⟩
      cases hfailure.symm.trans hg
    · cases hfailure.symm.trans heq
      exact ⟨hdue.kind, hdue.cause⟩
    · cases hfailure.symm.trans heq
      exact hdue

/-- A block stands where the switch has its case. -/
def strayProgram : Node :=
  .program "stray" [.switch (.literal (.integer 1) {}) [.block [] {}] none {}] {}

/-- The loop starts with a program, not with a block. -/
def nestedProgram : Node :=
  .program "nested" [.loop (.program "init" [] {}) (.literal (.integer 0) {}) (.block [] {})
    (.block [] {}) {}] {}

/-- Not every tree is told apart by a fault of its structure: a block among the cases
of a switch ends the collection without one, and a program at the start of a loop is
taken for a block. -/
theorem collect_unsorted :
    collect strayProgram = .error (.missing (.field "Block" "value")) ∧
      ∃ g, collect nestedProgram = .ok g :=
  ⟨rfl, _, rfl⟩

end Flow

end YulTaint
