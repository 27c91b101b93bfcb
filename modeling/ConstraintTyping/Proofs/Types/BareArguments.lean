import ConstraintTyping.Proofs.Types.Listed
import ConstraintTyping.Proofs.Types.Refused

/-!
# Arguments that differ in their qualifiers

Instances are entered under the arguments as they are given, but as types they are over arguments
without qualifiers.  Requests that differ in qualifiers only are answered with one type, and whichever
of them comes first, its body says the same.  What depends on the qualifiers is the list of instances:
a request at qualified arguments lists the type once more.  As long as all arguments are without
qualifiers, every product and sum is listed once, and none of them is a declaration.
-/

namespace ConstraintTyping

open Store StoreM DeclM

variable {base st st' : Store} {name : Name} {d ty v w : TypeId} {k : DeclKind}
  {params args args' : List TypeId}

namespace Store

theorem map_tree_of_map_bare (h : args.map st.bare = args'.map st.bare) :
    args.map st.tree = args'.map st.tree := by
  have hbare : ∀ as : List TypeId, as.map st.tree = (as.map st.bare).map st.tree := fun as => by
    rw [List.map_map]
    exact List.map_congr_left fun a _ => (tree_bare st a).symm
  rw [hbare args, hbare args', h]

theorem map_bare_of_le (hle : st ≤ st') (hargs : ∀ a ∈ args, a < st.size) :
    args.map st'.bare = args.map st.bare :=
  List.map_congr_left fun a ha => bare_of_le hle (hargs a ha)

theorem variants_enterWith_list (shape : Shape TypeId) (b : Body) :
    (enterWith d args shape b st).2.variants =
      st.variants ++ [(enterWith d args shape b st).1] := by
  rw [enterWith, variants_ensureBody, variants_enterVariant, Store.variants, intern_nominals]
  rfl

/-- An instance of a declaration, read in a store with fewer types. -/
theorem IsInstance.of_ge (h : st'.IsInstance name k args v) (hle : st ≤ st') (hv : v < st.size)
    (hargs : ∀ a ∈ args, a < st.size) : st.IsInstance name k args v := by
  refine ⟨hv, ?_⟩
  rw [← shape_of_le hle hv, h.shape, map_bare_of_le hle hargs]

theorem lt_size_of_content? (h : st.Fitting) {c : Content} (hc : st.content? ty = some c) :
    ty < st.size := by
  obtain ⟨b, hb, -⟩ := Option.map_eq_some_iff.mp hc
  obtain ⟨k, hk, -⟩ := h.bodies hb
  obtain ⟨name, args, hshape⟩ := exists_shape_of_kind hk
  exact lt_size_of_shape_nominal hshape

namespace Guides

/-- A request at arguments that differ in qualifiers only is on the same way. -/
theorem requalify (h : base.Guides args st) (hargs : ∀ a ∈ args', a < base.size)
    (heq : args.map base.bare = args'.map base.bare) : base.Guides args' st where
  start := h.start
  within := hargs
  fitting := h.fitting
  accrues := h.accrues
  kept := h.kept
  made hc := by
    refine (h.made hc).imp_right ?_
    rintro ⟨name, d, k, params, hd, hinst, rfl⟩
    refine ⟨name, d, k, params, hd, ⟨hinst.lt_size, ?_⟩, ?_⟩
    · rw [hinst.shape, map_bare_of_le h.accrues.le h.within, heq, map_bare_of_le h.accrues.le hargs]
    · rw [drawn, drawn, map_tree_of_map_bare heq]

theorem trans (h : base.Guides args st) (h' : st.Guides args st') : base.Guides args st' :=
  h.extend h'.fitting h'.accrues h'.kept h'.made

/-- What the body of an instance says at the end of the way: what it said before, and otherwise what
the body of its declaration says at the arguments. -/
theorem content?_instance (h : base.Guides args st) (hd : base.Declares name d k params)
    (hv : st.IsInstance name k args v) (hbody : (st.nominals.bodies[v]?).isSome = true) :
    st.content? v = (base.content? v).or (some (base.drawn k d params args)) := by
  obtain ⟨c, hc⟩ := Option.isSome_iff_exists.mp (isSome_content?.trans hbody)
  cases hbase : base.content? v with
  | some c' => exact h.kept hbase
  | none =>
    rcases h.made hc with hold | ⟨name', d', k', params', hd', hinst, rfl⟩
    · rw [hbase] at hold
      cases hold
    · obtain ⟨rfl, rfl, -⟩ := DeclKind.shape_inj (hinst.shape.symm.trans hv.shape)
      obtain ⟨rfl, -, rfl⟩ := hd.unique hd'
      exact hc

/-- An instance is the same type at the end of two ways, as far as its body goes. -/
theorem content?_eq {one other : Store} (h : base.Guides args one) (h' : base.Guides args other)
    (hd : base.Declares name d k params) (hv : one.IsInstance name k args v)
    (hw : other.IsInstance name k args w) (hbody : (one.nominals.bodies[v]?).isSome = true)
    (hbody' : (other.nominals.bodies[w]?).isSome = true) : one.content? v = other.content? w := by
  -- a type of the base is one type in both stores
  have hsame : v < base.size ∨ w < base.size → v = w := by
    rintro (hlt | hlt)
    · exact ((hv.of_ge h.accrues.le hlt h.within).of_le h.within h'.accrues.le).unique hw rfl
    · exact hv.unique ((hw.of_ge h'.accrues.le hlt h.within).of_le h.within h.accrues.le) rfl
  rw [h.content?_instance hd hv hbody, h'.content?_instance hd hw hbody']
  cases hbase : base.content? v with
  | some c => rw [← hsame (.inl (lt_size_of_content? h.start hbase)), hbase]
  | none =>
    cases hbase' : base.content? w with
    | some c =>
      rw [hsame (.inr (lt_size_of_content? h.start hbase')), hbase'] at hbase
      cases hbase
    | none => rfl

end Guides

end Store

namespace DeclM

/-- An instance of a declared product or sum at as many arguments as it takes is made. -/
theorem gives_instantiate_guided (h : st.Fitting) (hd : st.Declares name d k params)
    (hlen : params.length = args.length) (hargs : ∀ a ∈ args, a < st.size) :
    Gives (DeclM.instantiate d args) st (fun _ => False) (st.Responds args name k params st) :=
  gives_get_bind (gives_instantiateWithin_guided _ (Guides.refl h hargs) hd.shape hd hlen
    (h.anchored.suffices_instantiationDepth k args))

/-- A new instance of a product that belongs to no sum is entered, and that is all. -/
theorem gives_instantiate_untied (h : st.Fitting) (hd : st.Declares name d .product params)
    (hlen : params.length = args.length) (hargs : ∀ a ∈ args, a < st.size) (hne : params ≠ args)
    (hnew : st.nominals.variants[(d, args)]? = none)
    (hparent : (st.productBody? d).bind (·.parent) = none) :
    Gives (DeclM.instantiate d args) st (fun _ => False) fun v st' => ∃ st₁ b, st ≤ st₁ ∧
      st₁.nominals = st.nominals ∧
        v = (enterWith d args (DeclKind.product.shape name args) b st₁).1 ∧
        st' = (enterWith d args (DeclKind.product.shape name args) b st₁).2 := by
  refine gives_get_bind ?_
  rw [instantiationDepth, instantiateWithin_succ]
  refine gives_findOr (h.anchored.declOf?_self hd.declared) (by rw [hd.nominalArgs]; exact hlen)
    (fun heq => absurd (hd.nominalArgs ▸ heq) hne) (fun w hw => ?_) fun _ _ => ?_
  · rw [hnew] at hw
    cases hw
  rw [hd.kind, hd.nominalArgs]
  refine (gives_substituteEach (h.keyed.vars hd) hargs h.fields_lt).bind ?_
  rintro parts st₁ ⟨⟨hle, hnom⟩, -, -⟩
  have hd₁ := declares_of_nominals hle hnom hd
  dsimp only
  rw [variantWith_eq]
  refine gives_findOr ((h.of_nominals hle hnom).anchored.declOf?_self hd₁.declared)
    (by rw [hd₁.nominalArgs]; exact hlen) (fun heq => absurd (hd₁.nominalArgs ▸ heq) hne)
    (fun w hw => ?_) fun _ _ => ?_
  · rw [hnom, hnew] at hw
    cases hw
  rw [hd₁.kind, hd₁.shape, DeclKind.variantShape_shape, Store.productBody?, hnom]
  refine gives_enterThen ?_
  rw [Store.productBody?] at hparent
  rw [hparent]
  exact gives_pure ⟨st₁, _, hle, hnom, rfl, rfl⟩

/-- One request after the other, at arguments that differ in qualifiers only. -/
theorem exists_instantiate_twice (h : st.Fitting) (hd : st.Declares name d k params)
    (hlen : params.length = args.length) (hargs : ∀ a ∈ args, a < st.size)
    (hargs' : ∀ a ∈ args', a < st.size) (heq : args.map st.bare = args'.map st.bare) :
    ∃ v st₁ st₂, (DeclM.instantiate d args).run st = (.ok v, st₁) ∧
      (DeclM.instantiate d args').run st₁ = (.ok v, st₂) ∧ st.Guides args st₂ ∧
      st₂.IsInstance name k args v ∧
      (args ≠ args' → (st₂.nominals.bodies[v]?).isSome = true) := by
  obtain ⟨v, st₁, hrun, hv⟩ := (gives_instantiate_guided h hd hlen hargs).exists_ok fun _ hf => hf
  have hle := hv.accrues.le
  have hargs₁ : ∀ a ∈ args, a < st₁.size := fun a ha => lt_size_of_le hle (hargs a ha)
  have hargs₁' : ∀ a ∈ args', a < st₁.size := fun a ha => lt_size_of_le hle (hargs' a ha)
  have heq₁ : args.map st₁.bare = args'.map st₁.bare := by
    rw [map_bare_of_le hle hargs, map_bare_of_le hle hargs', heq]
  have hlen' : params.length = args'.length := by
    rw [hlen, ← List.length_map st.bare, heq, List.length_map]
  obtain ⟨w, st₂, hrun', hw⟩ := (gives_instantiate_guided hv.guides.fitting
    (hv.accrues.declaresMore.declares hd) hlen' hargs₁').exists_ok fun _ hf => hf
  have hle₂ := hw.accrues.le
  have hv₂ := hv.made.of_le hargs₁ hle₂
  obtain rfl : v = w := hv₂.unique hw.made (by
    rw [map_bare_of_le hle₂ hargs₁, map_bare_of_le hle₂ hargs₁', heq₁])
  refine ⟨v, st₁, st₂, hrun, hrun', hv.guides.trans (hw.guides.requalify hargs₁ heq₁.symm), hv₂,
    fun hne => ?_⟩
  by_cases hself : params = args'
  · obtain ⟨c, hc⟩ := Option.isSome_iff_exists.mp
      (isSome_content?.trans (hv.body fun hself' => hne (hself'.symm.trans hself)))
    rw [← isSome_content?, hw.guides.kept hc]
    rfl
  · exact hw.body hself

end DeclM

namespace Operation

theorem along_append {P : Store → Operation → Prop} {before after : List Operation}
    (h : Along P before st) (h' : Along P after (runAll before st)) : Along P (before ++ after) st := by
  induction before generalizing st with
  | nil => exact h'
  | cons op before ih => exact ⟨h.1, ih h.2 h'⟩

/-- A later request is answered with the type of an earlier one. -/
theorem exists_instantiate_later {between : List Operation} (h : st.Fitting)
    (hd : st.Declares name d k params) (hlen : params.length = args.length)
    (hargs : ∀ a ∈ args, a < st.size) (hargs' : ∀ a ∈ args', a < st.size)
    (heq : args.map st.bare = args'.map st.bare)
    (hbetween : Along Suitable (.instantiate d args :: between) st)
    (hd' : (runAll (.instantiate d args :: between) st).Declares name d k params) :
    ∃ v, ((DeclM.instantiate d args).run st).1 = .ok v ∧
      ((DeclM.instantiate d args').run (runAll (.instantiate d args :: between) st)).1 = .ok v := by
  obtain ⟨v, st₁, hrun, hv⟩ := (gives_instantiate_guided h hd hlen hargs).exists_ok fun _ hf => hf
  have hfit := fitting_runAll h hbetween
  have hle := le_runAll (.instantiate d args :: between) st
  have hst : runAll (.instantiate d args :: between) st = runAll between st₁ := by
    show runAll between ((DeclM.instantiate d args).run st).2 = _
    rw [hrun]
  have hle₁ := le_runAll between st₁
  rw [← hst] at hle₁
  generalize runAll (.instantiate d args :: between) st = later at hfit hle hle₁ hd' ⊢
  have hlen' : params.length = args'.length := by
    rw [hlen, ← List.length_map st.bare, heq, List.length_map]
  obtain ⟨w, st₂, hrun', hw⟩ := (gives_instantiate_guided hfit hd' hlen'
    fun a ha => lt_size_of_le hle (hargs' a ha)).exists_ok fun _ hf => hf
  have hle₂ := hw.accrues.le
  have hv₂ := hv.made.of_le (fun a ha => lt_size_of_le hv.accrues.le (hargs a ha)) (le_trans hle₁ hle₂)
  obtain rfl : v = w := hv₂.unique hw.made (by
    rw [map_bare_of_le (le_trans hle hle₂) hargs, map_bare_of_le (le_trans hle hle₂) hargs', heq])
  exact ⟨v, by rw [hrun], by rw [hrun']⟩

/-- Two requests in either order. -/
theorem exists_instantiate_swapped (h : st.Fitting) (hd : st.Declares name d k params)
    (hlen : params.length = args.length) (hargs : ∀ a ∈ args, a < st.size)
    (hargs' : ∀ a ∈ args', a < st.size) (heq : args.map st.bare = args'.map st.bare) :
    ∃ v w, ((DeclM.instantiate d args).run st).1 = .ok v ∧
      ((DeclM.instantiate d args').run st).1 = .ok w ∧
      let one := runAll [.instantiate d args, .instantiate d args'] st
      let other := runAll [.instantiate d args', .instantiate d args] st
      one.tree v = other.tree w ∧ one.content? v = other.content? w := by
  have hlen' : params.length = args'.length := by
    rw [hlen, ← List.length_map st.bare, heq, List.length_map]
  obtain ⟨v, st₁, one, hrun, hrun', hguides, hv, hbody⟩ :=
    exists_instantiate_twice h hd hlen hargs hargs' heq
  obtain ⟨w, st₂, other, hrun₂, hrun₂', hguides', hw, hbody'⟩ :=
    exists_instantiate_twice h hd hlen' hargs' hargs heq.symm
  have hone : runAll [.instantiate d args, .instantiate d args'] st = one := by
    show ((DeclM.instantiate d args').run ((DeclM.instantiate d args).run st).2).2 = one
    rw [hrun, hrun']
  have hother : runAll [.instantiate d args', .instantiate d args] st = other := by
    show ((DeclM.instantiate d args).run ((DeclM.instantiate d args').run st).2).2 = other
    rw [hrun₂, hrun₂']
  refine ⟨v, w, by rw [hrun], by rw [hrun₂], ?_⟩
  rw [hone, hother]
  by_cases hsame : args = args'
  · subst hsame
    obtain ⟨hvw, rfl⟩ := Prod.mk.inj (hrun.symm.trans hrun₂)
    obtain rfl := Except.ok.inj hvw
    obtain ⟨-, rfl⟩ := Prod.mk.inj (hrun'.symm.trans hrun₂')
    exact ⟨rfl, rfl⟩
  · have hw' : other.IsInstance name k args w := by
      refine ⟨hw.lt_size, hw.shape.trans ?_⟩
      rw [map_bare_of_le hguides'.accrues.le hargs, map_bare_of_le hguides'.accrues.le hargs', heq]
    refine ⟨?_, hguides.content?_eq (hguides'.requalify hargs heq.symm) hd hv hw' (hbody hsame)
      (hbody' (Ne.symm hsame))⟩
    rw [hv.tree_eq, hw'.tree_eq, map_tree_of_le hguides.accrues.le hargs,
      map_tree_of_le hguides'.accrues.le hargs]

/-- Let operations be given what fits, and let a product or sum be declared after them.  At arguments
that differ in qualifiers only, a request is answered with the type of an earlier request, whatever is
done in between, as long as the declaration is not forgotten.  Two requests one after the other are
answered with the same type in either order, up to its number, and its body says the same.  If no
argument has had a qualifier, no product or sum is listed as an instance twice, and none that is
listed is a declaration. -/
theorem runAll_bareArguments (ops : List Operation) (hops : Along Suitable ops Store.new) :
    let st := runAll ops Store.new
    (∀ name d k params args args', st.Declares name d k params → params.length = args.length →
      (∀ a ∈ args, a < st.size) → (∀ a ∈ args', a < st.size) →
      args.map st.bare = args'.map st.bare →
        (∀ between, Along Suitable (.instantiate d args :: between) st →
          (runAll (.instantiate d args :: between) st).Declares name d k params →
          ∃ v, ((DeclM.instantiate d args).run st).1 = .ok v ∧
            ((DeclM.instantiate d args').run (runAll (.instantiate d args :: between) st)).1 = .ok v) ∧
        ∃ v w,
          ((DeclM.instantiate d args).run st).1 = .ok v ∧
          ((DeclM.instantiate d args').run st).1 = .ok w ∧
          let one := runAll [.instantiate d args, .instantiate d args'] st
          let other := runAll [.instantiate d args', .instantiate d args] st
          one.tree v = other.tree w ∧ one.content? v = other.content? w) ∧
    (Along (ArgsFit Bare) ops Store.new →
      (st.variants.filter fun v => st.kind v ≠ .trait).Nodup ∧
        ∀ v ∈ st.variants, st.kind v ≠ .trait → ∀ name, st.declared? name ≠ some v) := by
  intro st
  have h : st.Fitting := fitting_runAll fitting_new hops
  refine ⟨fun name d k params args args' hd hlen hargs hargs' heq => ⟨?_, ?_⟩, fun hbare => ?_⟩
  · intro between hbetween hd'
    exact exists_instantiate_later h hd hlen hargs hargs' heq hbetween hd'
  · exact exists_instantiate_swapped h hd hlen hargs hargs' heq
  · have hdistinct := kept_distinct.runAll distinct_new hbare
    exact ⟨hdistinct.once, fun v hv _ name => hdistinct.not_declared hv name⟩

/-- Besides what is declared half, an integer with a qualifier. -/
def declareQualified (param full : TypeId) : List Operation :=
  declareHalf param full ++ [.construct (.qualified .mutable TypeId.i32)]

theorem exists_declareQualified : ∃ param full qualified : TypeId,
    let st := runAll (declareQualified param full) Store.new
    Along Suitable (declareQualified param full) Store.new ∧
      Along (ArgsFit Bare) (declareQualified param full) Store.new ∧ st.Draft ∧
      st.Declares "Full" full .product [param] ∧
      st.nominals.bodies[full]? = some (.product ⟨[param], [none], none⟩) ∧
      qualified < st.size ∧ st.bare qualified = TypeId.i32 ∧ qualified ≠ TypeId.i32 := by
  obtain ⟨param, cell, full, bare, hops, hdraft, -, hfull, hbody, -, -⟩ := exists_declareHalf
  have hsuitable : Along Suitable (declareQualified param full) Store.new := by
    obtain ⟨h₁, h₂, h₃, h₄, h₅, -⟩ := hops
    exact ⟨h₁, h₂, h₃, h₄, h₅, trivial, trivial⟩
  have hst : runAll (declareQualified param full) Store.new =
      (StoreM.qualify .mutable TypeId.i32 (runAll (declareHalf param full) Store.new)).2 := by
    rw [declareQualified, runAll_append]
    rfl
  generalize runAll (declareHalf param full) Store.new = st at hst hdraft hfull hbody
  have hi32 : st.bare TypeId.i32 = TypeId.i32 :=
    bare_of_not_qualified (by rw [shape_prim .i32]; rfl)
  obtain ⟨hle, hlt, hbare⟩ := qualify_spec .mutable (@lt_size_of_prim st .i32)
  have hnom := qualify_nominals .mutable TypeId.i32 st
  have hne : (StoreM.qualify .mutable TypeId.i32 st).1 ≠ TypeId.i32 := by
    have hqualifiers := qualifiers_of_bare hi32
    intro heq
    rcases qualify_cases .mutable TypeId.i32 st with ⟨hmem, -⟩ | ⟨⟨-, -, hmem⟩, -⟩ | ⟨-, hwrap⟩
    · simp [hqualifiers] at hmem
    · simp [hqualifiers] at hmem
    · have hshape := (wrap_spec .mutable (@lt_size_of_prim st .i32)).1
      rw [← hwrap, heq, shape_prim .i32] at hshape
      cases hshape
  refine ⟨param, full, (StoreM.qualify .mutable TypeId.i32 st).1, hsuitable,
    ⟨trivial, trivial, trivial, trivial, trivial, trivial, trivial⟩, ?_⟩
  rw [hst]
  exact ⟨hdraft.of_nominals hle hnom, declares_of_nominals hle hnom hfull, by rw [hnom]; exact hbody,
    hlt, hbare.trans hi32, hne⟩

/-- A product at an integer, with a qualifier and without. -/
theorem runAll_bareArguments_qualified : ∃ param full qualified : TypeId,
    let st := runAll (declareQualified param full) Store.new
    let one := runAll [.instantiate full [TypeId.i32], .instantiate full [qualified]] st
    let other := runAll [.instantiate full [qualified], .instantiate full [TypeId.i32]] st
    Along Suitable (declareQualified param full) Store.new ∧ st.bare qualified = TypeId.i32 ∧
      qualified ≠ TypeId.i32 ∧
      (∃ v, ((DeclM.instantiate full [TypeId.i32]).run st).1 = .ok v ∧
        ((DeclM.instantiate full [qualified]).run (runAll [.instantiate full [TypeId.i32]] st)).1 =
          .ok v) ∧
      (∃ v w, ((DeclM.instantiate full [TypeId.i32]).run st).1 = .ok v ∧
        ((DeclM.instantiate full [qualified]).run st).1 = .ok w ∧
        one.tree v = other.tree w ∧ one.content? v = other.content? w) ∧
      (st.variants.filter fun v => st.kind v ≠ .trait).Nodup := by
  obtain ⟨param, full, qualified, hops, hbare, -, hfull, -, hlt, hqualified, hne⟩ :=
    exists_declareQualified
  refine ⟨param, full, qualified, hops, hqualified, hne, ?_⟩
  have hi32 : (runAll (declareQualified param full) Store.new).bare TypeId.i32 = TypeId.i32 :=
    bare_of_not_qualified (by rw [shape_prim .i32]; rfl)
  have hargs : ∀ a ∈ [TypeId.i32], a < (runAll (declareQualified param full) Store.new).size :=
    List.forall_mem_singleton.mpr (lt_size_of_prim .i32)
  obtain ⟨hrequests, hlisted⟩ := runAll_bareArguments _ hops
  obtain ⟨hlater, hswapped⟩ := hrequests "Full" full .product [param] [TypeId.i32] [qualified] hfull
    rfl hargs (List.forall_mem_singleton.mpr hlt) (by simp [hi32, hqualified])
  have hlen : [param].length = [TypeId.i32].length := rfl
  obtain ⟨v, st₁, hrun, hv⟩ := (gives_instantiate_guided (fitting_runAll fitting_new hops) hfull hlen
    hargs).exists_ok fun _ hf => hf
  refine ⟨hlater [] ⟨hargs, trivial⟩ ?_, hswapped, (hlisted hbare).1⟩
  show (((DeclM.instantiate full [TypeId.i32]).run _).2).Declares _ _ _ _
  rw [hrun]
  exact hv.accrues.declaresMore.declares hfull

/-- A request for a product that belongs to no sum lists the instance, even if it is listed. -/
theorem exists_listed_twice (h : st.Fitting) (hd : st.Declares name d .product params)
    (hlen : params.length = args.length) (hargs : ∀ a ∈ args, a < st.size)
    (hargs' : ∀ a ∈ args', a < st.size) (heq : args.map st.bare = args'.map st.bare)
    (hdistinct : args ≠ args') (hself : params ≠ args) (hself' : params ≠ args')
    (hnew : ∀ as : List TypeId, st.nominals.variants[(d, as)]? = none) {body : ProductBody}
    (hbody : st.productBody? d = some body) (hparent : body.parent = none) :
    ∃ v, (runAll [.instantiate d args, .instantiate d args'] st).variants =
        st.variants ++ [v] ++ [v] ∧
      (runAll [.instantiate d args, .instantiate d args'] st).kind v = .product := by
  obtain ⟨v, st₁, st₂, hrun, hrun', hguides, hv, -⟩ :=
    exists_instantiate_twice h hd hlen hargs hargs' heq
  have hlen' : params.length = args'.length := by
    rw [hlen, ← List.length_map st.bare, heq, List.length_map]
  have hst : runAll [.instantiate d args, .instantiate d args'] st = st₂ := by
    show ((DeclM.instantiate d args').run ((DeclM.instantiate d args).run st).2).2 = st₂
    rw [hrun, hrun']
  rw [hst]
  obtain ⟨v₁, _, hrun₁, st₀, b, hle₀, hnom₀, hv₁, hst₁⟩ := (gives_instantiate_untied h hd hlen hargs
    hself (hnew args) (by rw [hbody]; exact hparent)).exists_ok fun _ hf => hf
  obtain ⟨hvv, rfl⟩ := Prod.mk.inj (hrun.symm.trans hrun₁)
  obtain rfl := Except.ok.inj hvv
  have hnew₀ : st₀.nominals.variants[(d, args)]? = none := by
    rw [hnom₀]
    exact hnew args
  have haccrues : st.Accrues st₁ := by
    rw [hst₁]
    exact (Accrues.of_nominals hle₀ hnom₀).trans (accrues_enterWith _ b hnew₀)
  have hfit₁ : st₁.Fitting := by
    have hkept : (run (.instantiate d args) st).Fitting := fitting_run h hargs
    have hst₁' : run (.instantiate d args) st = st₁ := by
      show ((DeclM.instantiate d args).run st).2 = st₁
      rw [hrun]
    rwa [hst₁'] at hkept
  have hnew₁ : st₁.nominals.variants[(d, args')]? = none := by
    rw [hst₁, variants_enterWith, Std.HashMap.getElem?_insert, if_neg (by simp [hdistinct]), hnom₀]
    exact hnew args'
  have hbody₁ : st₁.productBody? d = some body := by
    rw [productBody?_eq_some, hst₁, bodies_enterWith, hnom₀, productBody?_eq_some.mp hbody]
    rfl
  obtain ⟨v₂, _, hrun₂, st₃, b', -, hnom₃, hv₂, hst₂⟩ := (gives_instantiate_untied hfit₁
    (haccrues.declaresMore.declares hd) hlen' (fun a ha => lt_size_of_le haccrues.le (hargs' a ha))
    hself' hnew₁ (by rw [hbody₁]; exact hparent)).exists_ok fun _ hf => hf
  obtain ⟨hvv, rfl⟩ := Prod.mk.inj (hrun'.symm.trans hrun₂)
  obtain rfl := Except.ok.inj hvv
  refine ⟨v, ?_, by rw [Store.kind, hv.shape]; rfl⟩
  rw [hst₂, variants_enterWith_list, ← hv₂, Store.variants, hnom₃]
  show st₁.variants ++ [v] = _
  rw [hst₁, variants_enterWith_list, ← hv₁, Store.variants, hnom₀]
  rfl

/-- At arguments with qualifiers a type is listed twice. -/
theorem listed_twice : ¬ ∀ ops : List Operation, Along Suitable ops Store.new →
    ((runAll ops Store.new).variants.filter fun v =>
      (runAll ops Store.new).kind v ≠ .trait).Nodup := by
  intro h
  obtain ⟨param, full, qualified, hops, -, hdraft, hfull, hbody, hlt, hqualified, hne⟩ :=
    exists_declareQualified
  have hfit := fitting_runAll fitting_new hops
  have hi32 : (runAll (declareQualified param full) Store.new).bare TypeId.i32 = TypeId.i32 :=
    bare_of_not_qualified (by rw [shape_prim .i32]; rfl)
  have hparam : param ≠ TypeId.i32 := by
    rintro rfl
    have hvar := hfit.keyed.vars hfull _ List.mem_cons_self
    rw [Store.isVar, shape_prim .i32] at hvar
    cases hvar
  have hparam' : param ≠ qualified := by
    rintro rfl
    have hvar := bare_of_isVar (hfit.keyed.vars hfull _ List.mem_cons_self)
    exact hparam (hvar.2.symm.trans hqualified)
  have hargs : ∀ a ∈ [TypeId.i32], a < (runAll (declareQualified param full) Store.new).size :=
    List.forall_mem_singleton.mpr (lt_size_of_prim .i32)
  have hargs' : ∀ a ∈ [qualified], a < (runAll (declareQualified param full) Store.new).size :=
    List.forall_mem_singleton.mpr hlt
  have hlen : [param].length = [TypeId.i32].length := rfl
  obtain ⟨v, hvariants, hkind⟩ := exists_listed_twice hfit hfull hlen hargs hargs'
    (by simp [hi32, hqualified]) (by simp [Ne.symm hne]) (by simp [hparam]) (by simp [hparam'])
    (fun as => hdraft.variants (full, as)) (productBody?_eq_some.mpr hbody) rfl
  have hnodup := h (declareQualified param full ++ [.instantiate full [TypeId.i32],
    .instantiate full [qualified]]) ?_
  · rw [runAll_append, hvariants, List.filter_append, List.filter_append] at hnodup
    simp [hkind, List.nodup_append] at hnodup
  · refine along_append hops ⟨hargs, fun a ha => ?_, trivial⟩
    have hle := le_runAll [.instantiate full [TypeId.i32]] (runAll (declareQualified param full) Store.new)
    exact lt_size_of_le hle (hargs' a ha)

end Operation

end ConstraintTyping
