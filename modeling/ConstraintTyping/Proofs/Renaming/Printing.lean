import ConstraintTyping.Fault.Mismatch
import ConstraintTyping.Infer.Apply
import ConstraintTyping.Proofs.Renaming.Solving
import ConstraintTyping.Proofs.Solve.Differences
import ConstraintTyping.Proofs.Types.Spelling

/-!
# Texts of types that are alike

The text of a type mentions its named variables by their names and numbers the others in the order
in which they are met.  So a renaming that keeps the names and sends fresh variables to fresh ones
does not show: types that are alike under it have the same text, and failures that are alike are
explained in the same words.
-/

namespace ConstraintTyping

/-! ## Loops over members -/

theorem flatMap_eq_of_forall₂ {α β γ : Type} {r : α → β → Prop} {f : α → List γ} {g : β → List γ}
    {xs : List α} {ys : List β} (h : List.Forall₂ r xs ys) (hfg : ∀ a b, r a b → f a = g b) :
    xs.flatMap f = ys.flatMap g := by
  induction h with
  | nil => rfl
  | cons hab _ ih => rw [List.flatMap_cons, List.flatMap_cons, hfg _ _ hab, ih]

theorem all_eq_of_forall₂ {α β : Type} {r : α → β → Prop} {f : α → Bool} {g : β → Bool}
    {xs : List α} {ys : List β} (h : List.Forall₂ r xs ys) (hfg : ∀ a b, r a b → f a = g b) :
    xs.all f = ys.all g := by
  induction h with
  | nil => rfl
  | cons hab _ ih => rw [List.all_cons, List.all_cons, hfg _ _ hab, ih]

/-! ## Pieces -/

namespace Piece

variable {α β : Type} {r : α → β → Prop}

/-- Equal texts, or related constituents. -/
inductive Like (r : α → β → Prop) : Piece α → Piece β → Prop
  | text (s : String) : Like r (.text s) (.text s)
  | part {a : α} {b : β} (h : r a b) : Like r (.part a) (.part b)

theorem like_commaList {xs : List α} {ys : List β} (h : List.Forall₂ r xs ys) :
    List.Forall₂ (Like r) (commaList xs) (commaList ys) := by
  induction h with
  | nil => exact .nil
  | cons hab h ih =>
    cases h with
    | nil => exact .cons (.part hab) .nil
    | cons => exact .cons (.part hab) (.cons (.text _) ih)

variable {f : α → Bool} {g : β → Bool}

theorem like_atom {a : α} {b : β} (h : r a b) (hfg : ∀ a b, r a b → f a = g b) :
    List.Forall₂ (Like r) (atom f a) (atom g b) := by
  unfold atom
  rw [hfg a b h]
  split
  · exact .cons (.text _) (.cons (.part h) (.cons (.text _) .nil))
  · exact .cons (.part h) .nil

theorem like_application (name : Name) {xs : List α} {ys : List β} (h : List.Forall₂ r xs ys)
    (hfg : ∀ a b, r a b → f a = g b) :
    List.Forall₂ (Like r) (application f name xs) (application g name ys) := by
  refine .cons (.text name) ?_
  induction h with
  | nil => exact .nil
  | cons hab _ ih =>
    rw [List.flatMap_cons, List.flatMap_cons]
    exact List.rel_append (.cons (.text _) (like_atom hab hfg)) ih

/-- Related shapes have related pieces. -/
theorem like_ofShape {ρ : VarIdent → VarIdent} {s : Shape α} {t : Shape β} (varText : String)
    (h : Shape.Like ρ r s t) (hfg : ∀ a b, r a b → f a = g b) :
    List.Forall₂ (Like r) (ofShape f varText s) (ofShape g varText t) := by
  cases h with
  | prim p => exact .cons (.text _) .nil
  | pointer h => exact .cons (.text _) (like_atom h hfg)
  | array h length => exact .cons (.text _) (.cons (.part h) (.cons (.text _) .nil))
  | tuple h => exact .cons (.text _) (List.rel_append (like_commaList h) (.cons (.text _) .nil))
  | var x => exact .cons (.text _) .nil
  | product name h | sum name h => exact like_application name h hfg
  | trait name hsubject h => exact like_application name (.cons hsubject h) hfg
  | qualified q h => exact .cons (.text _) (.cons (.part h) .nil)
  | @function ret ret' params givens params' givens' hret hparams hgivens isMeta isVariadic =>
    have hempty : ∀ {xs : List α} {ys : List β}, List.Forall₂ r xs ys → ys.isEmpty = xs.isEmpty :=
      fun h => by cases h <;> rfl
    simp only [ofShape, hempty hparams, hempty hgivens]
    refine List.rel_append (List.rel_append (List.rel_append (.cons (.text _)
      (like_commaList hparams)) ?_) (.cons (.text _) (.cons (.part hret) .nil))) ?_
    · split
      · exact .cons (.text _) .nil
      · exact .nil
    · split
      · exact .nil
      · exact .cons (.text _) (like_commaList hgivens)

theorem Like.agrees_eq {p q : Piece α} {p' q' : Piece β} (hp : Like r p p') (hq : Like r q q') :
    p'.agrees q' = p.agrees q := by
  cases hp <;> cases hq <;> rfl

end Piece

namespace Renaming

open Store

variable {R : Renaming} {w : Stores} {a a' b b' : TypeId}

theorem Alike.needsParens_eq (h : R.Alike w a b) : w.2.needsParens b = w.1.needsParens a := by
  have hshape := h.shape
  unfold Store.needsParens
  generalize w.1.shape a = s at hshape
  generalize w.2.shape b = t at hshape
  cases hshape with
  | product name h | sum name h => cases h <;> rfl
  | _ => rfl

theorem Alike.pieces (h : R.Alike w a b) (varText : String) :
    List.Forall₂ (Piece.Like (R.Alike w)) (w.1.pieces varText a) (w.2.pieces varText b) :=
  Piece.like_ofShape varText h.shape fun _ _ h => h.needsParens_eq.symm

/-! ## Texts -/

/-- A renaming that keeps the names of named variables and sends fresh ones to fresh ones. -/
structure Plain (R : Renaming) : Prop where
  named : ∀ {name : Name}, .named name ∈ R.dom → R.name (.named name) = .named name
  fresh : ∀ {n : Nat}, .fresh n ∈ R.dom → ∃ m, R.name (.fresh n) = .fresh m

theorem plain_refl : refl.Plain := ⟨fun _ => rfl, fun {n} _ => ⟨n, rfl⟩⟩

/-- Types that are alike have got the same names. -/
structure AlikeNames (R : Renaming) (w : Stores) (names names' : VarNames) : Prop where
  assigned : List.Forall₂ (fun p q => R.Alike w p.1 q.1 ∧ p.2 = q.2) names.assigned names'.assigned
  reserved : names.reserved = names'.reserved
  next : names.next = names'.next

/-- Two printers say the same, and hand out the same names. -/
def Tells {α : Type} (R : Renaming) (w : Stores) (x y : StateM VarNames α) : Prop :=
  ∀ names names', R.AlikeNames w names names' →
    R.AlikeNames w (x names).2 (y names').2 ∧ (x names).1 = (y names').1

theorem tells_pure {α : Type} (c : α) : R.Tells w (pure c) (pure c) := fun _ _ h => ⟨h, rfl⟩

theorem Tells.bind {α β : Type} {x y : StateM VarNames α} {f g : α → StateM VarNames β}
    (h : R.Tells w x y) (hf : ∀ c, R.Tells w (f c) (g c)) : R.Tells w (x >>= f) (y >>= g) := by
  intro names names' hnames
  obtain ⟨hsaid, heq⟩ := h names names' hnames
  rw [StateM.bind_apply, StateM.bind_apply, ← heq]
  exact hf _ _ _ hsaid

theorem tells_mapM {α β γ : Type} {r : α → β → Prop} {f : α → StateM VarNames γ}
    {g : β → StateM VarNames γ} {xs : List α} {ys : List β} (h : List.Forall₂ r xs ys)
    (hf : ∀ c d, c ∈ xs → r c d → R.Tells w (f c) (g d)) : R.Tells w (xs.mapM f) (ys.mapM g) := by
  induction h with
  | nil => exact tells_pure []
  | cons hcd _ ih =>
    rw [List.mapM_cons, List.mapM_cons]
    refine (hf _ _ List.mem_cons_self hcd).bind fun said => ?_
    exact (ih fun c d hc => hf c d (List.mem_cons_of_mem _ hc)).bind fun rest => tells_pure _

variable (hR : R.Plain)
include hR

theorem tells_varText (h : R.Alike w a b) : R.Tells w (w.1.varText a) (w.2.varText b) := by
  unfold Store.varText
  have hshape := h.shape
  cases hs : w.1.shape a <;> rw [hs] at hshape <;> generalize hs' : w.2.shape b = t at hshape <;>
    cases hshape
  case var.var x =>
    have hx : x ∈ R.dom := h.occurs x (by rw [tree_of_var hs]; exact TypeTree.occurs_var.mpr rfl)
    cases x with
    | named name =>
      rw [hR.named hx]
      exact tells_pure _
    | fresh n =>
      obtain ⟨m, hm⟩ := hR.fresh hx
      rw [hm]
      refine Tells.bind ?_ fun name => tells_pure _
      rintro names names' hnames
      unfold VarNames.nameFor VarNames.firstFree
      rw [← hnames.reserved, ← hnames.next]
      rcases AllAlike.lookup hnames.assigned h with ⟨hl, hl'⟩ | ⟨c, d, hl, hl', rfl⟩
      · rw [hl, hl']
        exact ⟨⟨.cons ⟨h, rfl⟩ hnames.assigned, rfl, rfl⟩, rfl⟩
      · rw [hl, hl']
        exact ⟨hnames, rfl⟩
  all_goals exact tells_pure _

theorem tells_printWith (h : R.Alike w a b) : R.Tells w (w.1.printWith a) (w.2.printWith b) := by
  induction a using Nat.strongRecOn generalizing b with
  | ind a ih =>
    rw [printWith_eq, printWith_eq]
    refine (tells_varText hR h).bind fun text => ?_
    refine (tells_mapM (h.pieces text) fun p q hp hpq => ?_).bind fun parts => tells_pure _
    cases hpq with
    | text s => exact tells_pure s
    | part hcd => exact ih _ (lt_of_mem_pieces hp) hcd

theorem tells_printWhole (ha : R.Alike w a a') (hb : R.Alike w b b') (color : Bool) (paint : String) :
    R.Tells w (w.1.printWhole color a b paint) (w.2.printWhole color a' b' paint) :=
  (tells_printWith hR ha).bind fun _ => (tells_printWith hR hb).bind fun _ => tells_pure _

theorem tells_printPairWith (color : Bool) (ha : R.Alike w a a') (hb : R.Alike w b b') :
    R.Tells w (w.1.printPairWith color a b) (w.2.printPairWith color a' b') := by
  -- facing constituents are compared next, those of the first type have smaller numbers
  induction a using Nat.strongRecOn generalizing a' b b' with
  | ind a ih =>
    -- a type that is on both sides of a pair stands for one that is
    rw [printPairWith_eq, printPairWith_eq]
    by_cases hab : a = b
    · rw [if_pos hab, if_pos ((ha.eq_iff hb).mp hab)]
      exact tells_printWhole hR ha hb color _
    rw [if_neg hab, if_neg fun hab' => hab ((ha.eq_iff hb).mpr hab')]
    refine (tells_varText hR ha).bind fun textA => (tells_varText hR hb).bind fun textB => ?_
    have hps := ha.pieces textA
    have hqs := hb.pieces textB
    have hzip := rel_zip hps hqs
    have hhead : sameHead (w.2.pieces textA a') (w.2.pieces textB b') =
        sameHead (w.1.pieces textA a) (w.1.pieces textB b) := by
      unfold sameHead
      rw [hps.length_eq, hqs.length_eq]
      exact congrArg (_ && ·) (all_eq_of_forall₂ hzip fun _ _ h => (h.1.agrees_eq h.2).symm).symm
    rw [hhead]
    split
    swap
    · exact tells_printWhole hR ha hb color _
    refine (tells_mapM hzip fun p q hp hpq => ?_).bind fun parts => tells_pure _
    obtain ⟨p₁, p₂⟩ := p
    obtain ⟨q₁, q₂⟩ := q
    obtain ⟨h₁, h₂⟩ := hpq
    cases h₁ with
    | text s => exact tells_pure _
    | part hcd =>
      cases h₂ with
      | text s => exact tells_pure _
      | part hcd' => exact ih _ (lt_of_mem_pieces (List.of_mem_zip hp).1) hcd hcd'

theorem Alike.writtenName?_eq (h : R.Alike w a b) : w.2.writtenName? b = w.1.writtenName? a := by
  unfold Store.writtenName?
  have hshape := h.shape
  cases hs : w.1.shape a <;> rw [hs] at hshape <;> generalize w.2.shape b = t at hshape <;>
    cases hshape <;> try rfl
  next x =>
    have hx : x ∈ R.dom := h.occurs x (by rw [tree_of_var hs]; exact TypeTree.occurs_var.mpr rfl)
    cases x with
    | named name => rw [hR.named hx]
    | fresh n =>
      obtain ⟨m, hm⟩ := hR.fresh hx
      rw [hm]

theorem alikeNames_forTypes {as bs : List TypeId} (h : R.AllAlike w as bs) :
    R.AlikeNames w (VarNames.forTypes w.1 as) (VarNames.forTypes w.2 bs) := by
  refine ⟨.nil, ?_, rfl⟩
  show as.flatMap (fun ty => (w.1.collectVars ty).filterMap w.1.writtenName?) =
    bs.flatMap fun ty => (w.2.collectVars ty).filterMap w.2.writtenName?
  refine flatMap_eq_of_forall₂ h fun a b hab => ?_
  generalize hxs : w.1.collectVars a = xs
  generalize hys : w.2.collectVars b = ys
  have hvars : R.AllAlike w xs ys := hxs ▸ hys ▸ hab.collectVars
  clear hxs hys
  induction hvars with
  | nil => rfl
  | cons hv _ ih => rw [List.filterMap_cons, List.filterMap_cons, ih, hv.writtenName?_eq hR]

/-- Types that are alike have the same text. -/
theorem Alike.print_eq (h : R.Alike w a b) : w.2.print b = w.1.print a := by
  have hnames := alikeNames_forTypes hR (.cons h .nil)
  exact (tells_printWith hR h _ _ hnames).2.symm

omit hR

/-! ## Differences -/

theorem headProblems_eq {s t : Shape TypeId} {s' t' : Shape TypeId} {ρ : VarIdent → VarIdent}
    (h : Shape.Like ρ (R.Alike w) s s') (h' : Shape.Like ρ (R.Alike w) t t') :
    s'.headProblems t' = s.headProblems t := by
  cases h with
  | prim p => cases p <;> cases h' <;> rfl
  | tuple hxs =>
    cases h' with
    | tuple hys =>
      dsimp only [Shape.headProblems]
      rw [hxs.length_eq, hys.length_eq]
    | _ => rfl
  | function _ hparams =>
    cases h' with
    | function _ hparams' =>
      dsimp only [Shape.headProblems]
      rw [hparams.length_eq, hparams'.length_eq]
    | _ => rfl
  | _ => cases h' <;> rfl

theorem alikePairs_facingParts {s t : Shape TypeId} {s' t' : Shape TypeId} {ρ : VarIdent → VarIdent}
    (h : Shape.Like ρ (R.Alike w) s s') (h' : Shape.Like ρ (R.Alike w) t t') :
    R.AlikePairs w (s.facingParts t) (s'.facingParts t') := by
  cases h <;> cases h' <;> try exact .nil
  case pointer.pointer hx _ _ hy => exact .cons ⟨hx, hy⟩ .nil
  case array.array hx _ _ _ hy _ => exact .cons ⟨hx, hy⟩ .nil
  case tuple.tuple hxs _ _ hys =>
    dsimp only [Shape.facingParts]
    rw [hxs.length_eq, hys.length_eq]
    split
    · exact rel_zip hxs hys
    · exact .nil
  case function.function hret hparams _ _ _ _ _ _ _ _ _ hret' hparams' _ _ _ =>
    dsimp only [Shape.facingParts]
    rw [hparams.length_eq, hparams'.length_eq]
    split
    · exact .nil
    · exact List.rel_append (rel_zip hparams hparams') (.cons ⟨hret, hret'⟩ .nil)
  case product.product hxs _ _ _ hys =>
    dsimp only [Shape.facingParts]
    rw [hxs.length_eq, hys.length_eq]
    split
    · exact rel_zip hxs hys
    · exact .nil
  case sum.sum hxs _ _ _ hys =>
    dsimp only [Shape.facingParts]
    rw [hxs.length_eq, hys.length_eq]
    split
    · exact rel_zip hxs hys
    · exact .nil

/-- A type is a pointer to another exactly when the types that are like them are so. -/
theorem Alike.pointer_iff (ha : R.Alike w a a') (hb : R.Alike w b b') :
    w.1.shape a = .pointer b ↔ w.2.shape a' = .pointer b' := by
  have hshape := ha.shape
  generalize w.1.shape a = s at hshape
  generalize w.2.shape a' = t at hshape
  cases hshape with
  | pointer h => rw [Shape.pointer.injEq, Shape.pointer.injEq, h.eq_iff hb]
  | _ => exact iff_of_false (fun h => by cases h) (fun h => by cases h)

/-- The specific differences between types depend on what the types are like. -/
theorem Alike.differences_eq (ha : R.Alike w a a') (hb : R.Alike w b b') :
    w.2.differences a' b' = w.1.differences a b := by
  induction a using Nat.strongRecOn generalizing a' b b' with
  | ind a ih =>
    -- heads are compared under the qualifiers, constituents as they are
    rw [Store.differences_eq, Store.differences_eq]
    have ha₀ := ha.bare
    have hb₀ := hb.bare
    have hhead := headProblems_eq ha₀.shape hb₀.shape
    have hinner : w.2.innerDifferences (w.2.bare a') (w.2.bare b') =
        w.1.innerDifferences (w.1.bare a) (w.1.bare b) := by
      unfold innerDifferences
      refine (flatMap_eq_of_forall₂ (forall₂_of_mem (alikePairs_facingParts ha₀.shape hb₀.shape)
        fun p hp q hpq => And.intro hp hpq) fun p q hpq => ?_).symm
      have hlt : p.1 < a := Nat.lt_of_lt_of_le
        (lt_of_mem_children (Shape.fst_mem_of_mem_facingParts hpq.1)) (w.1.table.bare_le a)
      exact (ih p.1 hlt hpq.2.1 hpq.2.2).symm
    by_cases hab : w.1.bare a = w.1.bare b
    · rw [if_pos hab, if_pos ((ha₀.eq_iff hb₀).mp hab)]
    rw [if_neg hab, if_neg fun hab' => hab ((ha₀.eq_iff hb₀).mpr hab')]
    have hpointer := (ha₀.pointer_iff hb₀).symm
    have hpointer' := (hb₀.pointer_iff ha₀).symm
    have hsa := ha₀.shape
    have hsb := hb₀.shape
    generalize w.1.shape (w.1.bare a) = s at *
    generalize w.2.shape (w.2.bare a') = s' at *
    generalize w.1.shape (w.1.bare b) = t at *
    generalize w.2.shape (w.2.bare b') = t' at *
    cases hsa <;> cases hsb <;> try rfl
    all_goals
      exact if_congr hpointer rfl (if_congr hpointer' rfl (congrArg₂ (· ++ ·) hhead hinner))

/-! ## Explanations -/

variable {f f' : ConstraintFailure}

/-- Failures that are alike are explained alike: the code and the place are the same. -/
theorem AlikeUnsolved.explain_code (h : R.AlikeUnsolved w f f') (color : Bool) :
    (w.2.explain color f').kind = (w.1.explain color f).kind ∧
      (w.2.explain color f').span = (w.1.explain color f).span := by
  obtain ⟨herror, -, -, hspan, -⟩ := h
  unfold Store.explain
  cases f; cases f'
  dsimp only at herror hspan
  cases herror <;> exact ⟨rfl, hspan⟩

include hR

theorem tells_printMismatchWith (color : Bool) (template : String) (ha : R.Alike w a a')
    (hb : R.Alike w b b') : R.Tells w (w.1.printMismatchWith color template a b)
      (w.2.printMismatchWith color template a' b') :=
  (tells_printPairWith hR color ha hb).bind fun _ => tells_pure _

theorem tells_failureNotes (color : Bool) (h : R.AlikeUnsolved w f f') :
    R.Tells w (w.1.failureNotes color f) (w.2.failureNotes color f') := by
  obtain ⟨herror, hlhs, hrhs, -, -⟩ := h
  unfold Store.failureNotes
  generalize f.error = e at herror
  generalize f'.error = e' at herror
  cases herror with
  | @mismatch x x' y y' ha hb =>
    dsimp only
    rw [ha.differences_eq hb]
    have hsame := and_congr (ha.eq_iff hlhs) (hb.eq_iff hrhs)
    rw [← Prod.mk.injEq, ← Prod.mk.injEq] at hsame
    by_cases heq : (x, y) = (f.lhs, f.rhs)
    · rw [if_pos heq, if_pos (hsame.mp heq)]
      exact tells_pure _
    · rw [if_neg heq, if_neg fun heq' => heq (hsame.mpr heq')]
      exact (tells_printMismatchWith hR color _ ha hb).bind fun _ => tells_pure _
  | infinite ha hb =>
    exact (tells_printWith hR ha).bind fun _ => (tells_printWith hR hb).bind fun _ => tells_pure _
  | arity expected found kind => exact tells_pure _
  | stepLimit limit => exact tells_pure _

/-- Failures that are alike are explained in the same words. -/
theorem AlikeUnsolved.explain_eq (h : R.AlikeUnsolved w f f') (color : Bool) :
    w.2.explain color f' = w.1.explain color f := by
  have hnames := alikeNames_forTypes hR (.cons h.lhs (.cons h.rhs .nil))
  unfold Store.explain
  dsimp only
  rw [h.reason, h.span]
  refine (((tells_printMismatchWith hR color f.reason.template h.lhs h.rhs).bind fun message =>
    (tells_failureNotes hR color h).bind fun notes => ?_) _ _ hnames).2.symm
  have herror := h.error
  generalize f.error = e at herror
  generalize f'.error = e' at herror
  cases herror <;> exact tells_pure _

/-- An obligation without variables is reported in the same words. -/
theorem unimplemented_eq (h : R.Alike w a b) (span : Span) :
    ApplyM.unimplemented w.2 b span = ApplyM.unimplemented w.1 a span := by
  unfold ApplyM.unimplemented
  rw [h.print_eq hR]

end Renaming

/-! ## The first piece -/

namespace Store

variable {st : Store} {ty : TypeId}

/-- The text of a type whose first piece is a text begins with it. -/
theorem exists_print_eq_append {s : String} {rest : List (Piece TypeId)} (hvar : st.varText ty = pure "")
    (hpieces : st.pieces "" ty = .text s :: rest) : ∃ tail, st.print ty = s ++ tail := by
  rw [print, printWith_eq, hvar, pure_bind, hpieces, List.mapM_cons]
  simp only [pure_bind, bind_assoc, String.join_cons]
  exact ⟨_, rfl⟩

theorem print_error (st : Store) : st.print TypeId.error = "<error>" := by
  have hshape : st.shape TypeId.error = .prim .error := shape_prim _
  have hvar : st.varText TypeId.error = pure "" := by rw [varText, hshape]
  rw [print, printWith_eq, hvar, pure_bind, pieces, hshape]
  rfl

/-- A function type does not print as the error type. -/
theorem print_ne_error {sig : Signature TypeTree} (h : st.tree ty = .mk (.function sig)) :
    st.print ty ≠ "<error>" := by
  have hne : ∀ {s : String} {rest : List (Piece TypeId)}, st.varText ty = pure "" →
      st.pieces "" ty = .text s :: rest → s.toList.head?.any (· ≠ '<') = true →
      st.print ty ≠ "<error>" := by
    intro s rest hvar hpieces hhead heq
    obtain ⟨tail, htail⟩ := exists_print_eq_append hvar hpieces
    have hfirst : (s.toList ++ tail.toList).head? = some '<' := by
      rw [← String.toList_append, ← htail, heq]
      decide
    rw [List.head?_append] at hfirst
    cases hs : s.toList.head? with
    | none => simp [hs] at hhead
    | some c => simp_all
  cases hs : st.shape ty with
  | function sig' =>
    refine hne (by rw [varText, hs]) (by rw [pieces, hs]; rfl) ?_
    cases sig'.isMeta <;> decide
  | qualified q base =>
    refine hne (by rw [varText, hs]) (by rw [pieces, hs]; rfl) ?_
    cases q <;> decide
  | _ =>
    rw [tree_of_not_qualified (by rw [hs]; rfl), hs] at h
    cases h

end Store

end ConstraintTyping
