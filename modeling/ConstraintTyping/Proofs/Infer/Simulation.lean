import ConstraintTyping.Proofs.Infer.Rules

/-!
# The walk over a store finds what the rules find

For every tree, the walk over a store that reports no error is a derivation of the rules on trees:
from what was found before it, in the environment of its scopes, to what is found and in scope after
it.  There is one lemma for each form, over what the walk does on the parts of the form; the
recursion over the tree only puts them together.
-/

namespace ConstraintTyping

open Store StoreM TypeTree FindM

/-! ## Statements -/

section Statements

variable (W : Surroundings) (context : FindContext)

/-- A walk over an expression: its scope may get new names, those around it stay. -/
def Expr.Walks (e : Expr) : Prop :=
  ∀ s : FindState, s.Ready W context →
    Does W context e.infer s
      (fun ty s' => s'.scopes.exit = s.scopes.exit ∧ ty < s'.store.size)
      fun T ty s' S S' => Finds W S (s.scopes.env T) e (T.tree ty) S' (s'.scopes.env T)

def ExprForm.Walks (form : ExprForm) : Prop :=
  ∀ (id : ExprId) (span : Span) (s : FindState), s.Ready W context →
    Does W context (form.infer id span) s
      (fun ty s' => s'.scopes.exit = s.scopes.exit ∧ ty < s'.store.size)
      fun T ty s' S S' => FormFinds W id S (s.scopes.env T) form (T.tree ty) S' (s'.scopes.env T)

def AllWalk (es : List Expr) : Prop :=
  ∀ s : FindState, s.Ready W context →
    Does W context (inferAll es) s
      (fun tys s' => s'.scopes.exit = s.scopes.exit ∧ tys.length = es.length ∧
        ∀ ty ∈ tys, ty < s'.store.size)
      fun T tys s' S S' => AllFind W S (s.scopes.env T) es (tys.map T.tree) S' (s'.scopes.env T)

def ElementsWalk (es : List Expr) : Prop :=
  ∀ (elem : TypeId) (s : FindState), s.Ready W context → elem < s.store.size →
    Does W context (inferElements elem es) s (fun _ s' => s'.scopes.exit = s.scopes.exit)
      fun T _ s' S S' => ∃ ts, ElementsFind W (T.tree elem) S (s.scopes.env T) es ts S'
        (s'.scopes.env T)

def ArmsWalk (arms : List Arm) : Prop :=
  ∀ (scrutinee result : TypeId) (s : FindState), s.Ready W context →
    scrutinee < s.store.size → result < s.store.size →
    Does W context (inferArms scrutinee result arms) s (fun _ s' => s'.scopes = s.scopes)
      fun T _ _ S S' => ArmsFind W (T.tree scrutinee) (T.tree result) S (s.scopes.env T) arms S'

def Pattern.Walks (p : Pattern) : Prop :=
  ∀ (expected : TypeId) (span : Span) (s : FindState), s.Ready W context →
    expected < s.store.size →
    Does W context (p.check expected span) s (fun _ s' => s'.scopes.exit = s.scopes.exit)
      fun T _ s' S S' => PatternFinds W S (s.scopes.env T) p (T.tree expected) S' (s'.scopes.env T)

def PatternsWalk (ps : List Pattern) : Prop :=
  ∀ (expected : List TypeId) (span : Span) (s : FindState), s.Ready W context →
    (∀ ty ∈ expected, ty < s.store.size) →
    Does W context (checkAll expected span ps) s (fun _ s' => s'.scopes.exit = s.scopes.exit)
      fun T _ s' S S' => ps.length = expected.length →
        PatternsFind W S (s.scopes.env T) ps (expected.map T.tree) S' (s'.scopes.env T)

end Statements

section Forms

variable {W : Surroundings} {context : FindContext} {s : FindState}

/-- A rule that follows the walk over the parts leaves the scopes as the parts left them. -/
theorem FindM.Infers.after {act : FindM TypeId} {P : Store → TypeId → Found → Found → Prop}
    {P' : Store → TypeId → FindState → Found → Found → Prop} {scopes : Scopes}
    (h : Infers W context act s P) (hscopes : s.scopes.exit = scopes.exit)
    (hP : ∀ T ty s' S S', s.store ≤ T → s'.scopes = s.scopes → P T ty S S' → P' T ty s' S S') :
    Does W context act s (fun ty s' => s'.scopes.exit = scopes.exit ∧ ty < s'.store.size) P' := by
  refine Does.mono h ?_ ?_
  · rintro ty s' - - ⟨hstays, hty⟩
    exact ⟨by rw [hstays, hscopes], hty⟩
  · rintro T ty s' S S' - hadv hT ⟨hstays, -⟩ hp
    exact hP T ty s' S S' (hadv.le.trans hT) hstays hp

/-- A form whose type is a primitive when its parts are walked. -/
theorem does_prim {P : Store → TypeId → FindState → Found → Found → Prop} {scopes : Scopes}
    (p : Prim) (hs : s.Ready W context) (hscopes : s.scopes.exit = scopes.exit)
    (hP : ∀ T S, s.store ≤ T → P T (TypeId.ofPrim p) s S S) :
    Does W context (pure (TypeId.ofPrim p)) s
      (fun ty s' => s'.scopes.exit = scopes.exit ∧ ty < s'.store.size) P :=
  does_pure hs ⟨hscopes, lt_size_of_prim p⟩ hP

@[simp] theorem tree_bool (T : Store) : T.tree TypeId.bool = prim .bool := T.tree_prim .bool

@[simp] theorem tree_unit (T : Store) : T.tree TypeId.unit = prim .unit := T.tree_prim .unit

theorem walks_mk {id : ExprId} {span : Span} {form : ExprForm} (h : form.Walks W context) :
    (Expr.mk id span form).Walks W context := by
  intro s hs
  refine ((h id span s hs).reaches fun _ _ hq => hq.2).bind fun ty s₁ hs₁ _ hq => ?_
  refine (does_record id hs₁ hq.2).mono ?_ ?_
  · rintro _ s₂ - - ⟨hscopes, hstore, rfl⟩
    exact ⟨by rw [hscopes, hq.1], by rw [hstore]; exact hq.2⟩
  · rintro T _ s₂ S₁ _ - - - ⟨hscopes, -, rfl⟩ rfl - S ⟨hfinds, hreaches⟩
    rw [hscopes]
    exact .mk hfinds hreaches

/-! ## Lists -/

theorem allWalk_nil : AllWalk W context [] := by
  intro s hs
  exact does_pure hs ⟨rfl, rfl, by simp⟩ fun T S _ => .nil

theorem allWalk_cons {e : Expr} {rest : List Expr} (he : e.Walks W context)
    (hrest : AllWalk W context rest) : AllWalk W context (e :: rest) := by
  intro s hs
  refine (he s hs).bind fun ty s₁ hs₁ _ hty => ?_
  refine (hrest s₁ hs₁).bind fun tys s₂ hs₂ hadv₂ htys => ?_
  refine does_pure hs₂ ⟨htys.1.trans hty.1, by simp [htys.2.1], ?_⟩ ?_
  · exact List.forall_mem_cons.mpr ⟨lt_size_of_le hadv₂.le hty.2, htys.2.2⟩
  · intro T S' _ _ S₁ hall _ S hfinds
    exact .cons hfinds hall

theorem elementsWalk_nil : ElementsWalk W context [] := by
  intro elem s hs _
  exact does_pure hs rfl fun T S _ => ⟨[], .nil⟩

theorem elementsWalk_cons {e : Expr} {rest : List Expr} (he : e.Walks W context)
    (hrest : ElementsWalk W context rest) : ElementsWalk W context (e :: rest) := by
  intro elem s hs helem
  refine (he s hs).bind fun ty s₁ hs₁ hadv₁ hty => ?_
  have helem₁ := lt_size_of_le hadv₁.le helem
  refine (does_equal e.span .arrayElement hs₁ helem₁ hty.2).bind fun _ s₂ hs₂ _ hstays => ?_
  refine (hrest elem s₂ hs₂ (by rw [hstays.2]; exact helem₁)).mono ?_ ?_
  · intro _ s₃ _ _ hscopes
    rw [hscopes, hstays.1, hty.1]
  · rintro T _ s₃ _ S' - - - - ⟨ts, hts⟩ - S₁ rfl - S hfinds
    rw [hstays.1] at hts
    exact ⟨_, .cons hfinds hts⟩

theorem armsWalk_nil : ArmsWalk W context [] := by
  intro scrutinee result s hs _ _
  exact does_pure hs rfl fun T S _ => .nil

theorem armsWalk_cons {pattern : Pattern} {body : Expr} {span : Span} {rest : List Arm}
    (hpattern : pattern.Walks W context) (hbody : body.Walks W context)
    (hrest : ArmsWalk W context rest) : ArmsWalk W context (.mk pattern body span :: rest) := by
  intro scrutinee result s hs hscrutinee hresult
  refine (does_enterScope hs).bind fun _ s₁ hs₁ hadv₁ h₁ => ?_
  refine (hpattern scrutinee span s₁ hs₁ (lt_size_of_le hadv₁.le hscrutinee)).bind
    fun _ s₂ hs₂ hadv₂ h₂ => ?_
  refine (hbody s₂ hs₂).bind fun ty s₃ hs₃ hadv₃ h₃ => ?_
  have hadv := (hadv₁.trans hadv₂).trans hadv₃
  refine (does_equal body.span .matchArm hs₃ (lt_size_of_le hadv.le hresult) h₃.2).bind
    fun _ s₄ hs₄ hadv₄ h₄ => ?_
  -- the scope of the arm ends where it began
  have hexit : s₄.scopes.exit = s.scopes := by rw [h₄.1, h₃.1, h₂, h₁.1]; rfl
  refine (does_exitScope hs₄ (by rw [hexit]; exact hs.frames)).bind fun _ s₅ hs₅ hadv₅ h₅ => ?_
  have hscopes : s₅.scopes = s.scopes := h₅.1.trans hexit
  have hadv := ((hadv.trans hadv₄).trans hadv₅).le
  refine (hrest scrutinee result s₅ hs₅ (lt_size_of_le hadv hscrutinee)
    (lt_size_of_le hadv hresult)).mono ?_ ?_
  · intro _ s₆ _ _ h₆
    exact h₆.trans hscopes
  · rintro T _ s₆ _ S' - - - - harms - _ rfl - _ rfl - S₂ hfinds - S₁ hpat - S rfl
    rw [h₁.1, Scopes.env_enter] at hpat
    rw [hscopes] at harms
    exact .cons hpat hfinds harms

/-! ## Patterns -/

theorem FindM.mapM_build {α β : Type} (f : α → StoreM β) (xs : List α) :
    (xs.mapM fun x => build (f x)) = build (xs.mapM f) := by
  induction xs with
  | nil => rfl
  | cons x xs ih =>
    rw [List.mapM_cons, List.mapM_cons, ih]
    rfl

theorem walks_binding {id : PatternId} {name : Name} : (Pattern.binding id name).Walks W context := by
  intro expected span s hs hexpected
  refine (does_bindName name hs hexpected).mono ?_ ?_
  · rintro _ s' - - ⟨hscopes, -⟩
    rw [hscopes, (Scopes.bind_spec hs.frames name expected).2.2]
  · rintro T _ s' S _ - - - ⟨hscopes, -⟩ rfl
    rw [hscopes, Scopes.env_bind T hs.frames]
    exact .binding

theorem walks_literal {id : PatternId} {e : Expr} (he : e.Walks W context) :
    (Pattern.literal id e).Walks W context := by
  intro expected span s hs hexpected
  refine (he s hs).bind fun ty s₁ hs₁ hadv₁ hty => ?_
  refine (does_equal e.span .pattern hs₁ (lt_size_of_le hadv₁.le hexpected) hty.2).mono ?_ ?_
  · rintro _ s₂ - - ⟨hscopes, -⟩
    rw [hscopes, hty.1]
  · rintro T _ s₂ S₁ _ - - - ⟨hscopes, -⟩ rfl - S hfinds
    rw [hscopes]
    exact .literal hfinds

theorem walks_tuplePattern {id : PatternId} {items : List Pattern}
    (hitems : PatternsWalk W context items) : (Pattern.tuple id items).Walks W context := by
  intro expected span s hs hexpected
  have hvars := does_freshVars items hs
  rw [← mapM_build] at hvars
  refine hvars.bind fun parts s₁ hs₁ hadv₁ hparts => ?_
  obtain ⟨hscopes₁, hlen, hlt⟩ := hparts
  obtain ⟨-, hltTuple, htree⟩ := yields_tuple hlt
  refine (does_builds (Q := fun ty st => ty < st.size ∧ st.vars = s₁.store.vars ∧
    st.tree ty = TypeTree.tuple (parts.map s₁.store.tree)) hs₁ (builds_tuple parts)
    ⟨hltTuple, vars_tuple parts s₁.store, htree⟩).bind fun tuple s₂ hs₂ hadv₂ htuple => ?_
  obtain ⟨hscopes₂, hlt₂, hvars₂, htree₂⟩ := htuple
  refine (does_equal span .pattern hs₂ (lt_size_of_le (hadv₁.trans hadv₂).le hexpected)
    hlt₂).bind fun _ s₃ hs₃ hadv₃ hstays₃ => ?_
  refine (hitems parts span s₃ hs₃ fun ty hty =>
    lt_size_of_le (hadv₂.trans hadv₃).le (hlt ty hty)).mono ?_ ?_
  · intro _ s₄ _ _ hscopes
    rw [hscopes, hstays₃.1, hscopes₂, hscopes₁]
  · rintro T _ s₄ _ S' - - - - hfinds hT₃ _ rfl hT₂ S₁ ⟨hS₁, rfl⟩ hT₁ S ⟨ys, hys, hintro⟩
    have hread : T.tree tuple = TypeTree.tuple (ys.map var) := by
      rw [tree_of_le hT₂ hlt₂, htree₂, ← hys, map_tree_of_le hT₁ hlt]
    have hfinds := hfinds hlen.symm
    rw [hstays₃.1, hscopes₂, hscopes₁, hread, hys, hvars₂, ← hS₁] at hfinds
    exact .tuple hintro hfinds

theorem walks_tag {id : PatternId} {name : Name} {items : List Pattern}
    (hitems : PatternsWalk W context items) : (Pattern.tag id name items).Walks W context := by
  intro expected span s hs hexpected
  refine does_query_bind ?_
  cases hdecl : s.store.declaredProduct? name with
  | none =>
    refine (does_fault _ hs (P := fun _ _ _ _ _ => False)).bind fun _ s₁ hs₁ _ h₁ => ?_
    refine does_pure hs₁ (by rw [h₁.1]) ?_
    intro T S _ _ _ hfalse
    exact hfalse.elim
  | some decl =>
    obtain ⟨params, hd⟩ := declares_of_declaredProduct? hs.implements.coherent hdecl
    refine (does_freshProduct hs hd).bind fun made s₁ hs₁ hadv₁ hmade => ?_
    obtain ⟨hscopes₁, inst, body, rfl, -, hfields, hparent, -⟩ := hmade
    dsimp only
    refine (does_equal span .pattern hs₁ (lt_size_of_le hadv₁.le hexpected) hparent).bind
      fun _ s₂ hs₂ _ hstays₂ => ?_
    refine does_check_bind _ hs₂ fun s₃ hs₃ hscopes₃ hstore₃ => ?_
    refine (hitems body.fields span s₃ hs₃ (by rw [hstore₃, hstays₂.2]; exact hfields)).mono ?_ ?_
    · intro _ s₄ _ _ hscopes
      rw [hscopes, hscopes₃, hstays₂.1, hscopes₁]
    · rintro T _ s₄ _ S' - - - - hfinds hlen - S₁ rfl - S hopens
      obtain ⟨p, xs, hopens, -, hpfields, hresult, -⟩ := hopens inst body rfl
      have hfinds := hfinds (not_not.mp hlen)
      rw [hresult, hpfields, hscopes₃, hstays₂.1, hscopes₁] at hfinds
      exact .tag hopens hfinds

theorem patternsWalk_nil : PatternsWalk W context [] := by
  intro expected span s hs _
  refine does_pure hs rfl fun T S _ hlen => ?_
  obtain rfl := List.length_eq_zero_iff.mp hlen.symm
  exact .nil

theorem patternsWalk_cons {p : Pattern} {rest : List Pattern} (hp : p.Walks W context)
    (hrest : PatternsWalk W context rest) : PatternsWalk W context (p :: rest) := by
  intro expected span s hs hexpected
  cases expected with
  | nil =>
    refine does_pure hs rfl fun T S _ hlen => ?_
    cases hlen
  | cons ty tys =>
    obtain ⟨hty, htys⟩ := List.forall_mem_cons.mp hexpected
    refine (hp ty span s hs hty).bind fun _ s₁ hs₁ hadv₁ h₁ => ?_
    refine (hrest tys span s₁ hs₁ fun t ht => lt_size_of_le hadv₁.le (htys t ht)).mono ?_ ?_
    · intro _ s₂ _ _ h₂
      exact h₂.trans h₁
    · intro T _ s₂ S₁ S' _ _ _ _ hfinds _ S hpat hlen
      exact .cons hpat (hfinds (Nat.succ.inj hlen))

/-! ## Expressions -/

theorem walks_char {value : Char} : (ExprForm.char value).Walks W context := by
  intro id span s hs
  refine does_prim .c8 hs rfl fun T S _ => ?_
  rw [tree_prim]
  exact .literal .char

theorem walks_int {value : Nat} {suffix : Option Name} :
    (ExprForm.int value suffix).Walks W context := by
  intro id span s hs
  refine (infers_intRule suffix span hs).after rfl ?_
  rintro T ty s' S _ - hscopes ⟨rfl, h⟩
  rw [hscopes]
  exact .literal (h value)

theorem walks_float {bits : Nat} {suffix : Option Name} :
    (ExprForm.float bits suffix).Walks W context := by
  intro id span s hs
  refine (infers_floatRule suffix span hs).after rfl ?_
  rintro T ty s' S _ - hscopes ⟨rfl, h⟩
  rw [hscopes]
  exact .literal (h bits)

theorem walks_bool {value : Bool} : (ExprForm.bool value).Walks W context := by
  intro id span s hs
  refine does_prim .bool hs rfl fun T S _ => ?_
  rw [tree_prim]
  exact .literal .bool

theorem walks_string {value : String} : (ExprForm.string value).Walks W context := by
  intro id span s hs
  obtain ⟨-, hlt, htree⟩ := @yields_pointer s.store _ (lt_size_of_prim .c8)
  refine (does_intern (t := fun T => .mk (.pointer (T.tree TypeId.c8))) hs rfl hlt htree
    fun T hT => by rw [tree_of_le hT (lt_size_of_prim .c8)]).mono ?_ ?_
  · rintro ty s' - - ⟨hscopes, hty⟩
    exact ⟨by rw [hscopes], hty⟩
  · rintro T ty s' S _ - - - ⟨hscopes, -⟩ ⟨rfl, hread⟩
    rw [hread, hscopes, show T.tree TypeId.c8 = prim .c8 from T.tree_prim .c8]
    exact .literal .string

theorem walks_unit : ExprForm.unit.Walks W context := by
  intro id span s hs
  refine does_prim .unit hs rfl fun T S _ => ?_
  rw [tree_prim]
  exact .literal .unit

theorem walks_ident {name : Name} : (ExprForm.ident name).Walks W context := by
  intro id span s hs
  refine (infers_identRule name span hs).after rfl ?_
  intro T ty s' S S' _ hscopes h
  rw [hscopes]
  exact h id

theorem walks_call {callee : Expr} {args : List Expr} (hcallee : callee.Walks W context)
    (hargs : AllWalk W context args) : (ExprForm.call callee args).Walks W context := by
  intro id span s hs
  refine (hcallee s hs).bind fun f s₁ hs₁ _ hf => ?_
  refine (hargs s₁ hs₁).bind fun tys s₂ hs₂ hadv₂ htys => ?_
  refine (infers_callRule id span callee.span hs₂ (lt_size_of_le hadv₂.le hf.2) htys.2.2
    (by rw [List.length_map, htys.2.1])).after (htys.1.trans hf.1) ?_
  intro T ty s' S₂ S' _ hscopes hcall _ S₁ hall _ S hfinds
  rw [hscopes]
  exact .call hfinds hall hcall

theorem walks_binary {op : BinaryOp} {left right : Expr} (hleft : left.Walks W context)
    (hright : right.Walks W context) : (ExprForm.binary op left right).Walks W context := by
  intro id span s hs
  refine (hleft s hs).bind fun l s₁ hs₁ _ hl => ?_
  refine (hright s₁ hs₁).bind fun r s₂ hs₂ hadv₂ hr => ?_
  refine (infers_binaryRule op span left.span right.span hs₂ (lt_size_of_le hadv₂.le hl.2)
    hr.2).after (hr.1.trans hl.1) ?_
  intro T ty s' S₂ S' _ hscopes h _ S₁ hr _ S hl
  rw [hscopes]
  exact h hl hr

theorem walks_unary {op : UnaryOp} {operand : Expr} (hoperand : operand.Walks W context) :
    (ExprForm.unary op operand).Walks W context := by
  intro id span s hs
  refine (hoperand s hs).bind fun t s₁ hs₁ _ ht => ?_
  refine (infers_unaryRule op span operand.span hs₁ ht.2).after ht.1 ?_
  intro T ty s' S₁ S' _ hscopes h _ S hfinds
  rw [hscopes]
  exact h hfinds

theorem walks_field {receiver : Expr} {name : Name} (hreceiver : receiver.Walks W context) :
    (ExprForm.field receiver name).Walks W context := by
  intro id span s hs
  refine (hreceiver s hs).bind fun t s₁ hs₁ _ ht => ?_
  refine (infers_fieldRule name span receiver.span hs₁ ht.2).after ht.1 ?_
  intro T ty s' S₁ S' _ hscopes h _ S hfinds
  rw [hscopes]
  exact h hfinds

theorem walks_construct {name : Name} {args : List Expr} (hargs : AllWalk W context args) :
    (ExprForm.construct name args).Walks W context := by
  intro id span s hs
  refine (hargs s hs).bind fun tys s₁ hs₁ _ htys => ?_
  refine (infers_constructRule name span hs₁ htys.2.2
    (by rw [List.length_map, htys.2.1])).after htys.1 ?_
  intro T ty s' S₁ S' _ hscopes h _ S hall
  rw [hscopes]
  exact h hall

theorem walks_tuple {items : List Expr} (hitems : AllWalk W context items) :
    (ExprForm.tuple items).Walks W context := by
  intro id span s hs
  refine (hitems s hs).bind fun tys s₁ hs₁ _ htys => ?_
  obtain ⟨-, hlt, htree⟩ := yields_tuple htys.2.2
  refine (does_builds (Q := fun ty st => ty < st.size ∧ st.vars = s₁.store.vars ∧
    st.tree ty = TypeTree.tuple (tys.map s₁.store.tree)) hs₁ (builds_tuple tys)
    ⟨hlt, vars_tuple tys s₁.store, htree⟩).mono ?_ ?_
  · rintro ty s₂ - - ⟨hscopes, hty, -⟩
    exact ⟨by rw [hscopes, htys.1], hty⟩
  · rintro T ty s₂ S₁ _ - - hT ⟨hscopes, hty, hvars, hread⟩ ⟨hS₁, rfl⟩ hT₁ S hall
    rw [hvars, ← hS₁, hscopes, tree_of_le hT hty, hread, ← map_tree_of_le hT₁ htys.2.2]
    exact .tuple hall

theorem walks_array {items : List Expr} (hitems : ElementsWalk W context items) :
    (ExprForm.array items).Walks W context := by
  intro id span s hs
  refine (does_freshVar hs).bind fun elem s₁ hs₁ _ helem => ?_
  refine (hitems elem s₁ hs₁ helem.2).bind fun _ s₂ hs₂ hadv₂ h₂ => ?_
  have helem₂ := lt_size_of_le hadv₂.le helem.2
  obtain ⟨-, hlt, htree⟩ := yields_array (some items.length) helem₂
  refine (does_intern (t := fun T => .mk (.array (T.tree elem) (some items.length))) hs₂ rfl hlt
    htree fun T hT => by rw [tree_of_le hT helem₂]).mono ?_ ?_
  · rintro ty s₃ - - ⟨hscopes, hty⟩
    exact ⟨by rw [hscopes, h₂, helem.1], hty⟩
  · rintro T ty s₃ S' _ - - - ⟨hscopes, -⟩ ⟨rfl, hread⟩ - S₁ ⟨ts, hts⟩ - S ⟨x, hx, hintro⟩
    rw [hread, hscopes, hx]
    rw [hx, helem.1] at hts
    exact .array hintro hts

/-- A scope around a walk ends where it began. -/
theorem does_exitInner {scopes : Scopes} (hs : s.Ready W context)
    (hscopes : s.scopes.exit = scopes.enter.exit) (hframes : scopes.frames ≠ []) :
    Does W context exitScope s (fun _ s' => s'.scopes = scopes ∧ s'.store = s.store)
      fun _ _ _ S S' => S' = S := by
  have hexit : s.scopes.exit = scopes := hscopes
  refine (does_exitScope hs (by rw [hexit]; exact hframes)).mono ?_ fun _ _ _ _ _ _ _ _ _ h => h
  rintro _ s' - - ⟨h, hstore⟩
  exact ⟨h.trans hexit, hstore⟩

theorem walks_block {items : List Expr} (hitems : AllWalk W context items) :
    (ExprForm.block items).Walks W context := by
  intro id span s hs
  refine (does_enterScope hs).bind fun _ s₁ hs₁ _ h₁ => ?_
  refine (hitems s₁ hs₁).bind fun tys s₂ hs₂ _ htys => ?_
  refine (does_exitInner hs₂ (htys.1.trans (by rw [h₁.1])) hs.frames).bind
    fun _ s₃ hs₃ _ h₃ => ?_
  have hlast : tys.getLastD TypeId.unit < s₂.store.size := by
    cases hl : tys.getLast? with
    | none => rw [List.getLastD_eq_getLast?, hl]; exact lt_size_of_prim .unit
    | some ty => rw [List.getLastD_eq_getLast?, hl]; exact htys.2.2 ty (List.mem_of_getLast? hl)
  refine does_pure hs₃ ⟨by rw [h₃.1], by rw [h₃.2]; exact hlast⟩ ?_
  rintro T _ - - S' rfl - S₁ hall - S rfl
  have hread : T.tree (tys.getLastD TypeId.unit) = (tys.map T.tree).getLastD (prim .unit) := by
    rw [List.getLastD_eq_getLast?, List.getLastD_eq_getLast?, List.getLast?_map]
    cases tys.getLast? with
    | none => exact T.tree_prim .unit
    | some ty => rfl
  rw [h₁.1, Scopes.env_enter] at hall
  rw [hread, h₃.1]
  exact .block hall

theorem walks_ifThen {condition thenBranch : Expr} (hcondition : condition.Walks W context)
    (hthen : thenBranch.Walks W context) :
    (ExprForm.ifThen condition thenBranch).Walks W context := by
  intro id span s hs
  refine (hcondition s hs).bind fun c s₁ hs₁ _ hc => ?_
  refine (does_equal condition.span .condition hs₁ (lt_size_of_prim .bool) hc.2).bind
    fun _ s₂ hs₂ _ h₂ => ?_
  refine (hthen s₂ hs₂).bind fun t s₃ hs₃ _ ht => ?_
  refine (does_equal thenBranch.span .branch hs₃ (lt_size_of_prim .unit) ht.2).bind
    fun _ s₄ hs₄ _ h₄ => ?_
  refine does_prim .unit hs₄ (by rw [h₄.1, ht.1, h₂.1, hc.1]) ?_
  rintro T _ - - S₂ rfl - _ hthen - S₁ rfl - S hcond
  rw [h₂.1, tree_bool] at hthen
  rw [tree_prim, h₄.1]
  exact .ifThen hcond hthen

theorem walks_ifElse {condition thenBranch elseBranch : Expr}
    (hcondition : condition.Walks W context) (hthen : thenBranch.Walks W context)
    (helse : elseBranch.Walks W context) :
    (ExprForm.ifElse condition thenBranch elseBranch).Walks W context := by
  intro id span s hs
  refine (hcondition s hs).bind fun c s₁ hs₁ _ hc => ?_
  refine (does_equal condition.span .condition hs₁ (lt_size_of_prim .bool) hc.2).bind
    fun _ s₂ hs₂ _ h₂ => ?_
  refine (hthen s₂ hs₂).bind fun t s₃ hs₃ _ ht => ?_
  refine (helse s₃ hs₃).bind fun e s₄ hs₄ hadv₄ he => ?_
  refine (does_equal elseBranch.span .branch hs₄ (lt_size_of_le hadv₄.le ht.2) he.2).bind
    fun _ s₅ hs₅ hadv₅ h₅ => ?_
  refine does_pure hs₅ ⟨by rw [h₅.1, he.1, ht.1, h₂.1, hc.1],
    lt_size_of_le (hadv₄.trans hadv₅).le ht.2⟩ ?_
  rintro T _ - - S₃ rfl - S₂ helse - _ hthen - S₁ rfl - S hcond
  rw [h₂.1, tree_bool] at hthen
  rw [h₅.1]
  exact .ifElse hcond hthen helse

theorem walks_select {scrutinee : Expr} {arms : List Arm} (hscrutinee : scrutinee.Walks W context)
    (harms : ArmsWalk W context arms) : (ExprForm.select scrutinee arms).Walks W context := by
  intro id span s hs
  refine (hscrutinee s hs).bind fun t s₁ hs₁ _ ht => ?_
  refine (does_freshVar hs₁).bind fun v s₂ hs₂ hadv₂ hv => ?_
  refine (harms t v s₂ hs₂ (lt_size_of_le hadv₂.le ht.2) hv.2).bind fun _ s₃ hs₃ hadv₃ h₃ => ?_
  refine (does_coverageRule _ span hs₃).bind fun _ s₄ hs₄ hadv₄ h₄ => ?_
  refine does_pure hs₄ ⟨by rw [h₄.1, h₃, hv.1, ht.1],
    lt_size_of_le (hadv₃.trans hadv₄).le hv.2⟩ ?_
  rintro T _ - - S' rfl - S₂ harms - S₁ ⟨x, hx, hintro⟩ - S hfinds
  rw [hx, hv.1] at harms
  rw [hx, h₄.1, h₃, hv.1]
  exact .select hfinds hintro harms

theorem walks_loop {condition body : Expr} (hcondition : condition.Walks W context)
    (hbody : body.Walks W context) : (ExprForm.loop condition body).Walks W context := by
  intro id span s hs
  refine (hcondition s hs).bind fun c s₁ hs₁ _ hc => ?_
  refine (does_equal condition.span .condition hs₁ (lt_size_of_prim .bool) hc.2).bind
    fun _ s₂ hs₂ _ h₂ => ?_
  refine (hbody s₂ hs₂).bind fun t s₃ hs₃ _ ht => ?_
  refine does_prim .unit hs₃ (by rw [ht.1, h₂.1, hc.1]) ?_
  rintro T _ - - _ hbody - S₁ rfl - S hcond
  rw [h₂.1, tree_bool] at hbody
  rw [tree_prim]
  exact .loop hcond hbody

/-- A name is bound for the rest of its scope. -/
theorem does_define {P : Store → FindState → Found → Found → Prop} {scopes : Scopes} (name : Name)
    {ty : TypeId} (hs : s.Ready W context) (hty : ty < s.store.size)
    (hscopes : s.scopes.exit = scopes.exit)
    (hP : ∀ T s' S, s.store ≤ T → s'.scopes.env T = (name, T.tree ty) :: s.scopes.env T →
      P T s' S S) :
    Does W context (FindM.bind name ty >>= fun _ => pure TypeId.unit) s
      (fun ty s' => s'.scopes.exit = scopes.exit ∧ ty < s'.store.size)
      fun T ty s' S S' => ty = TypeId.unit ∧ P T s' S S' := by
  refine (does_bindName name hs hty).bind fun _ s₁ hs₁ hadv₁ h₁ => ?_
  refine does_pure hs₁ ⟨?_, lt_size_of_prim .unit⟩ ?_
  · rw [h₁.1, (Scopes.bind_spec hs.frames name ty).2.2, hscopes]
  · rintro T S hT - _ rfl
    refine ⟨rfl, hP T s₁ _ (hadv₁.le.trans hT) ?_⟩
    rw [h₁.1, Scopes.env_bind T hs.frames]

theorem walks_define {name : Name} {written : Option TypeExpr} {init : Expr}
    (hinit : init.Walks W context) : (ExprForm.define name written init).Walks W context := by
  intro id span s hs
  refine (hinit s hs).bind fun t s₁ hs₁ _ ht => ?_
  cases written with
  | none =>
    refine (does_define (P := fun T s' S S' => S' = S ∧
      s'.scopes.env T = (name, T.tree t) :: s₁.scopes.env T) name hs₁ ht.2 ht.1
      fun T s' S _ henv => ⟨rfl, henv⟩).imp ?_
    rintro T _ s' S₁ _ - - - - ⟨rfl, rfl, henv⟩ - S hfinds
    rw [henv, tree_unit]
    exact .define hfinds
  | some w =>
    refine Does.bind (infers_writtenRule w span hs₁) fun ty s₂ hs₂ hadv₂ hty => ?_
    refine (does_equal init.span .ascription hs₂ hty.2 (lt_size_of_le hadv₂.le ht.2)).bind
      fun _ s₃ hs₃ _ h₃ => ?_
    have hscopes : s₃.scopes = s₁.scopes := h₃.1.trans hty.1
    refine (does_define (P := fun T s' S S' => S' = S ∧
      s'.scopes.env T = (name, T.tree ty) :: s₃.scopes.env T) name hs₃ (by rw [h₃.2]; exact hty.2)
      (by rw [hscopes, ht.1]) fun T s' S _ henv => ⟨rfl, henv⟩).imp ?_
    rintro T _ s' _ _ - - - - ⟨rfl, rfl, henv⟩ - S₂ rfl - S₁ hwrites - S hfinds
    rw [henv, hscopes, tree_unit]
    exact .defineAs hfinds hwrites

theorem walks_assign {target value : Expr} (htarget : target.Walks W context)
    (hvalue : value.Walks W context) : (ExprForm.assign target value).Walks W context := by
  intro id span s hs
  refine (htarget s hs).bind fun t s₁ hs₁ _ ht => ?_
  refine (hvalue s₁ hs₁).bind fun v s₂ hs₂ hadv₂ hv => ?_
  refine (does_equal span .assign hs₂ (lt_size_of_le hadv₂.le ht.2) hv.2).bind
    fun _ s₃ hs₃ _ h₃ => ?_
  refine does_prim .unit hs₃ (by rw [h₃.1, hv.1, ht.1]) ?_
  rintro T _ - - S₂ rfl - S₁ hvalue - S htarget
  rw [tree_prim, h₃.1]
  exact .assign htarget hvalue

theorem walks_ascribe {e : Expr} {written : TypeExpr} (he : e.Walks W context) :
    (ExprForm.ascribe e written).Walks W context := by
  intro id span s hs
  refine (he s hs).bind fun t s₁ hs₁ _ ht => ?_
  refine Does.bind (infers_writtenRule written span hs₁) fun ty s₂ hs₂ hadv₂ hty => ?_
  refine (does_equal span .ascription hs₂ hty.2 (lt_size_of_le hadv₂.le ht.2)).bind
    fun _ s₃ hs₃ _ h₃ => ?_
  refine does_pure hs₃ ⟨by rw [h₃.1, hty.1, ht.1], by rw [h₃.2]; exact hty.2⟩ ?_
  rintro T _ - - S₂ rfl - S₁ hwrites - S hfinds
  rw [h₃.1, hty.1]
  exact .ascribe hfinds hwrites

theorem walks_lambda {params : List Param} {body : Expr} (hbody : body.Walks W context) :
    (ExprForm.lambda params body).Walks W context := by
  intro id span s hs
  refine (does_enterScope hs).bind fun _ s₁ hs₁ _ h₁ => ?_
  refine (does_paramsRule params hs₁).bind fun tys s₂ hs₂ _ htys => ?_
  refine (hbody s₂ hs₂).bind fun t s₃ hs₃ hadv₃ ht => ?_
  refine (does_exitInner hs₃ (by rw [ht.1, htys.1, h₁.1]) hs.frames).bind
    fun _ s₄ hs₄ hadv₄ h₄ => ?_
  have hchildren := Signature.children_lt (lt_size_of_le hadv₄.le ht.2) fun p hp =>
    lt_size_of_le (hadv₃.trans hadv₄).le (htys.2 p hp)
  obtain ⟨-, hlt, htree⟩ := yields_function hchildren
  refine (does_intern (t := fun T => .mk (.function (Signature.map T.tree _))) hs₄ rfl hlt
    htree ?_).mono ?_ ?_
  · intro T hT
    exact congrArg TypeTree.mk (Shape.map_congr (s := .function _) fun c hc =>
      tree_of_le hT (hchildren c hc))
  · rintro ty s₅ - - ⟨hscopes, hty⟩
    exact ⟨by rw [hscopes, h₄.1], hty⟩
  · rintro T ty s₅ S' _ - - - ⟨hscopes, -⟩ ⟨rfl, hread⟩ - S₃ rfl - S₂ hbody - S₁ ⟨hparams, henv⟩ - S rfl
    rw [henv, h₁.1, Scopes.env_enter] at hbody
    rw [hread, hscopes, h₄.1]
    exact .lambda hparams hbody

end Forms

/-! ## The whole tree -/

section Tree

variable (W : Surroundings) (context : FindContext)

mutual

/-- The walk over an expression is a derivation of the rules. -/
theorem Expr.walks : ∀ e : Expr, e.Walks W context
  | .mk _ _ form => walks_mk form.walks

theorem ExprForm.walks : ∀ form : ExprForm, form.Walks W context
  | .int _ _ => walks_int
  | .float _ _ => walks_float
  | .bool _ => walks_bool
  | .char _ => walks_char
  | .string _ => walks_string
  | .unit => walks_unit
  | .ident _ => walks_ident
  | .call callee args => walks_call callee.walks (allWalk args)
  | .binary _ left right => walks_binary left.walks right.walks
  | .unary _ operand => walks_unary operand.walks
  | .field receiver _ => walks_field receiver.walks
  | .construct _ args => walks_construct (allWalk args)
  | .tuple items => walks_tuple (allWalk items)
  | .array items => walks_array (elementsWalk items)
  | .block items => walks_block (allWalk items)
  | .ifThen condition thenBranch => walks_ifThen condition.walks thenBranch.walks
  | .ifElse condition thenBranch elseBranch =>
    walks_ifElse condition.walks thenBranch.walks elseBranch.walks
  | .select scrutinee arms => walks_select scrutinee.walks (armsWalk arms)
  | .loop condition body => walks_loop condition.walks body.walks
  | .define _ _ init => walks_define init.walks
  | .assign target value => walks_assign target.walks value.walks
  | .ascribe e _ => walks_ascribe e.walks
  | .lambda _ body => walks_lambda body.walks

theorem allWalk : ∀ es : List Expr, AllWalk W context es
  | [] => allWalk_nil
  | e :: rest => allWalk_cons e.walks (allWalk rest)

theorem elementsWalk : ∀ es : List Expr, ElementsWalk W context es
  | [] => elementsWalk_nil
  | e :: rest => elementsWalk_cons e.walks (elementsWalk rest)

theorem armsWalk : ∀ arms : List Arm, ArmsWalk W context arms
  | [] => armsWalk_nil
  | .mk pattern body _ :: rest => armsWalk_cons pattern.walks body.walks (armsWalk rest)

theorem Pattern.walks : ∀ p : Pattern, p.Walks W context
  | .wildcard _ => fun _ _ _ hs _ => does_pure hs rfl fun _ _ _ => .wildcard
  | .binding _ _ => walks_binding
  | .literal _ e => walks_literal e.walks
  | .tuple _ items => walks_tuplePattern (patternsWalk items)
  | .tag _ _ items => walks_tag (patternsWalk items)

theorem patternsWalk : ∀ ps : List Pattern, PatternsWalk W context ps
  | [] => patternsWalk_nil
  | p :: rest => patternsWalk_cons p.walks (patternsWalk rest)

end

end Tree

end ConstraintTyping
