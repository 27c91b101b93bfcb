import ConstraintTyping.Proofs.Check.Course
import ConstraintTyping.Proofs.Check.Schemes
import ConstraintTyping.Proofs.Renaming.Groups
import ConstraintTyping.Proofs.Renaming.Resuming
import ConstraintTyping.Proofs.Renaming.Signatures

/-!
# Turns side by side

Two modules are checked whose groups correspond, up to the names of type variables, though they may
have their turns in another order, with other groups in between.  When a group has its turn, what it
refers to had its turn before, on both sides.  So, by induction on the turn, what is referred to got the
same types on both sides, and the group is checked in step with its counterpart.
-/

namespace ConstraintTyping

open Store StoreM CheckM CheckState Renaming

theorem Renaming.FollowsIn.resume {R : Renaming} {base : Store} {w₀ w : Stores} {ρ : Name → Name}
    {f : FunctionDecl} (hf : R.FollowsIn ρ f) (h : R.Suits base) (hle : w₀ ≤ w) :
    (Renaming.resume h hle).FollowsIn ρ f := fun n hn =>
  ⟨(named_resume h hle (hf n hn).1).1, (named_resume h hle (hf n hn).1).2.trans (hf n hn).2⟩

namespace SignaturePair

variable (P : SignaturePair) (m m' : Module) (config : CheckConfig) (log : DiagnosticLog)

/-- A function of a group and its counterpart.  The functions of one group have one renaming. -/
structure Counterpart (name : Name) (f f' : FunctionDecl) : Prop where
  of_eq : P.of f.name = P.of name
  mem : f.name ∈ P.names
  references : ∀ n ∈ f.references, n ∈ P.names
  renamed : ∃ ρ, f' = f.renameVars ρ ∧ (P.of f.name).FollowsIn ρ f

/-- Two modules whose signatures are alike and whose groups correspond. -/
structure Corresponds (turn : List Nat → List Nat) : Prop where
  branches : Branches P.base ((m.prepared config log).store, (m'.prepared config log).store)
  traits : (m'.prepared config log).traits = (m.prepared config log).traits
  schemes : (m.prepared config log).traits.HasSchemes P.base
  suits : ∀ name, (P.of name).Suits P.base
  globals : ∀ name ∈ P.names, Option.Rel (P.AlikeProvisional name
    ((m.prepared config log).store, (m'.prepared config log).store))
      (m.prepared config log).globals[name]? (m'.prepared config log).globals[name]?
  turn : ∀ G ∈ m.bodyGroups, turn G ∈ m'.bodyGroups ∧
    ∃ name, List.Forall₂ (P.Counterpart name) (m.members G) (m'.members (turn G))

/-- What the turn of a group comes to on both sides: its functions get the same types, and the faults
that are reported are alike. -/
structure TurnsAlike (turn : List Nat → List Nat) (G : List Nat) : Prop where
  final : ∀ f ∈ m.members G, Option.Rel (SideBySide.AlikeFinal
    ((m.after config log G).store, (m'.after config log (turn G)).store))
      (m.after config log G).globals[f.name]? (m'.after config log (turn G)).globals[f.name]?
  log : ∃ R : Renaming, ((∀ f ∈ m.members G, (P.of f.name).Plain) → R.Plain) ∧
    R.AlikeLogs ((m.before config log G).log, (m'.before config log (turn G)).log)
      (m.after config log G).log (m'.after config log (turn G)).log

variable {P m m' config log} {turn : List Nat → List Nat} {G H : List Nat} {w : Stores}
  {pre post pre' post' : List (List Nat)} {name : Name}

theorem isScheme_of_signatureOf {s : CheckState} {f : FunctionDecl} {ty : TypeId}
    (h : s.SignatureOf f ty) : s.store.IsScheme ty := by
  obtain ⟨sig, hsig, -⟩ := h.signature
  have hshape := shape_of_signature? hsig
  exact ⟨h.sound.1, by rw [Store.isVar, hshape]; rfl, by rw [hshape]; rfl⟩

/-- A scheme of a store is the same in every later one. -/
theorem same_of_isScheme {st : Store} {ty : TypeId} (h : st.IsScheme ty) (h₁ : st ≤ w.1)
    (h₂ : st ≤ w.2) : Same w ty ty :=
  ⟨alike_refl h₁ h₂ h.lt_size, (h.of_le h₁).not_var, (h.of_le h₁).not_qualified⟩

variable (config log) in
/-- The turns of other groups only add types. -/
theorem prepared_le_before {G' : List Nat} (hsplit : m.bodyGroups = pre ++ G :: post)
    (hsplit' : m'.bodyGroups = pre' ++ G' :: post') :
    ((m.prepared config log).store, (m'.prepared config log).store) ≤
      ((m.before config log G).store, (m'.before config log G').store) :=
  ⟨(Module.runs_before config log hsplit).store.1.le,
    (Module.runs_before config log hsplit').store.1.le⟩

namespace Corresponds

variable (h : P.Corresponds m m' config log turn)

include h

theorem mem_turn (hG : G ∈ m.bodyGroups) : turn G ∈ m'.bodyGroups := (h.turn G hG).1

/-- The counterpart of a function of a group has its name, and is in the counterpart of the group. -/
theorem exists_counterpart (hG : G ∈ m.bodyGroups) {f : FunctionDecl} (hf : f ∈ m.members G) :
    ∃ name, ∃ f' ∈ m'.members (turn G), f'.name = f.name ∧ f'.references = f.references ∧
      P.Counterpart name f f' := by
  obtain ⟨-, name, hall⟩ := h.turn G hG
  obtain ⟨f', hf', hcounter⟩ := exists_mem_of_forall₂ hall.flip hf
  obtain ⟨ρ, rfl, -⟩ := hcounter.renamed
  exact ⟨name, _, hf', rfl, f.references_renameVars, hcounter⟩

/-- A provisional function is provisional on both sides, with types that are alike. -/
theorem provisional (hG : G ∈ m.bodyGroups) {f : FunctionDecl} (hf : f ∈ m.members G) :
    ∃ ty ty', (m.prepared config log).globals[f.name]? = some ⟨ty, false⟩ ∧
      (m'.prepared config log).globals[f.name]? = some ⟨ty', false⟩ ∧
      (m.prepared config log).SignatureOf f ty ∧ (P.of f.name).Alike
        ((m.prepared config log).store, (m'.prepared config log).store) ty ty' := by
  obtain ⟨name, f', hf', -, -, hcounter⟩ := h.exists_counterpart hG hf
  obtain ⟨ty, hty, hsig⟩ := Module.prepared_of_mem_members config log hG hf
  have hrel := h.globals f.name hcounter.mem
  rw [hty] at hrel
  generalize (m'.prepared config log).globals[f.name]? = o at hrel ⊢
  cases hrel with
  | @some _ g' hg =>
    obtain ⟨ty', finished⟩ := g'
    obtain rfl : finished = false := hg.finished
    exact ⟨ty, ty', hty, rfl, hsig, hg.alike⟩

/-- Where the group of a name had its turn before, it had so on both sides, with the same type. -/
theorem alikeGlobal_of_mem_pre (hsplit : m.bodyGroups = pre ++ G :: post)
    (hsplit' : m'.bodyGroups = pre' ++ turn G :: post') (hH : H ∈ pre) (hH' : turn H ∈ pre')
    (ih : P.TurnsAlike m m' config log turn H) {f : FunctionDecl} (hf : f ∈ m.members H)
    (R : Renaming) : Option.Rel (R.AlikeGlobal
      ((m.before config log G).store, (m'.before config log (turn G)).store))
        (m.before config log G).globals[f.name]? (m'.before config log (turn G)).globals[f.name]? := by
  have hHmem : H ∈ m.bodyGroups := by rw [hsplit]; exact List.mem_append_left _ hH
  obtain ⟨name, f', hf', hname, -⟩ := h.exists_counterpart hHmem hf
  obtain ⟨hleft, hle⟩ := Module.globals_reached_of_mem config log hsplit hH hf
  obtain ⟨hright, hle'⟩ := Module.globals_reached_of_mem config log hsplit' hH' hf'
  rw [← Module.before_of_split config log hsplit] at hleft hle
  rw [← Module.before_of_split config log hsplit'] at hright hle'
  rw [hname] at hright
  rw [hleft, hright]
  -- its turn finished it
  obtain ⟨pre₁, mid, rfl⟩ := List.append_of_mem hH
  have hchecks := Module.checks_after config log (show m.bodyGroups = pre₁ ++ H ::
    (mid ++ G :: post) by rw [hsplit, List.append_assoc, List.cons_append])
  obtain ⟨ty, -, hty, -⟩ := hchecks.functions.finished f.name (List.mem_map_of_mem hf)
  have hfinal := ih.final f hf
  rw [hty] at hfinal ⊢
  generalize (m'.after config log (turn H)).globals[f.name]? = o at hfinal ⊢
  cases hfinal with
  | @some _ g' hg =>
    refine .some ⟨hg.finished, fun _ => ?_, fun hfin => by cases hfin⟩
    have hsame : Same ((m.before config log G).store, (m'.before config log (turn G)).store) _ _ :=
      (hg.same rfl).of_le ⟨hle, hle'⟩
    exact ⟨hsame.not_var, hsame.not_qualified, refl, hsame.alike⟩

/-- The renaming with which a group and its counterpart have their turns. -/
def resumed (hsplit : m.bodyGroups = pre ++ G :: post)
    (hsplit' : m'.bodyGroups = pre' ++ turn G :: post') (name : Name) : Renaming :=
  resume (h.suits name) (prepared_le_before config log hsplit hsplit')

/-- A member of the group that has its turn is provisional on both sides, with types that are alike. -/
theorem provisional_before (hsplit : m.bodyGroups = pre ++ G :: post)
    (hsplit' : m'.bodyGroups = pre' ++ turn G :: post') {f : FunctionDecl} (hf : f ∈ m.members G)
    (hof : P.of f.name = P.of name) : ∃ ty ty',
      (m.before config log G).globals[f.name]? = some ⟨ty, false⟩ ∧
      (m'.before config log (turn G)).globals[f.name]? = some ⟨ty', false⟩ ∧
      (∃ sig, (m.before config log G).store.signature? ty = some sig) ∧
      (h.resumed hsplit hsplit' name).Alike
        ((m.before config log G).store, (m'.before config log (turn G)).store) ty ty' := by
  have hG : G ∈ m.bodyGroups := by rw [hsplit]; simp
  obtain ⟨-, f', hf', hname, -⟩ := h.exists_counterpart hG hf
  obtain ⟨ty, ty', hty, hty', hsig, halike⟩ := h.provisional hG hf
  have hle := prepared_le_before config log hsplit hsplit'
  rw [Module.globals_before_of_not_mem config log hsplit (Module.not_mem_pre hsplit hf),
    Module.globals_before_of_not_mem config log hsplit' (hname ▸ Module.not_mem_pre hsplit' hf')]
  rw [hof] at halike
  obtain ⟨sig, hsig, -⟩ := hsig.signature
  exact ⟨ty, ty', hty, hty', ⟨sig, (FindM.signature?_of_le hle.1 halike.left_lt).trans hsig⟩,
    halike.resume _ _⟩

/-- A name that no group defines stands for the same on both sides: for nothing, or for a function
without a body. -/
theorem alikeGlobal_of_no_group (hsplit : m.bodyGroups = pre ++ G :: post)
    (hsplit' : m'.bodyGroups = pre' ++ turn G :: post') {n : Name} (hn : n ∈ P.names)
    (hnone : ∀ H ∈ m.bodyGroups, ∀ g ∈ m.members H, g.name ≠ n) (R : Renaming) :
    Option.Rel (R.AlikeGlobal ((m.before config log G).store, (m'.before config log (turn G)).store))
      (m.before config log G).globals[n]? (m'.before config log (turn G)).globals[n]? := by
  have hrel := h.globals n hn
  have hfinished : ∀ g, (m.prepared config log).globals[n]? = some g → g.finished = true := by
    rintro ⟨ty, finished⟩ hg
    cases finished with
    | true => rfl
    | false =>
      obtain ⟨H, hH, f, hf, hfn⟩ := Module.exists_member_of_provisional hg
      exact absurd hfn (hnone H hH f hf)
  have hnone' : ∀ H ∈ m'.bodyGroups, ∀ g ∈ m'.members H, g.name ≠ n := by
    rintro H hH f hf rfl
    obtain ⟨ty, hty, -⟩ := Module.prepared_of_mem_members config log hH hf
    rw [hty] at hrel
    generalize (m.prepared config log).globals[f.name]? = o at hrel hfinished
    cases hrel with
    | @some g _ hg => cases hg.finished.trans (hfinished g rfl)
  have hle := prepared_le_before config log hsplit hsplit'
  have hsignature := fun g (hg : (m.prepared config log).globals[n]? = some g) =>
    (m.collected_prepared config log).global hg
  rw [Module.globals_before_of_not_mem config log hsplit fun H hH => hnone H (by
      rw [hsplit]; exact List.mem_append_left _ hH),
    Module.globals_before_of_not_mem config log hsplit' fun H hH => hnone' H (by
      rw [hsplit']; exact List.mem_append_left _ hH)]
  generalize (m.prepared config log).globals[n]? = o at hrel hfinished hsignature ⊢
  generalize (m'.prepared config log).globals[n]? = o' at hrel ⊢
  cases hrel with
  | none => exact .none
  | @some g g' hg =>
    obtain ⟨f, -, -, hsig⟩ := hsignature g rfl
    have hscheme := (isScheme_of_signatureOf hsig).of_le hle.1
    refine .some ⟨hg.finished, fun _ => ?_, fun hfin => ?_⟩
    · exact ⟨hscheme.not_var, hscheme.not_qualified, P.of n, hg.alike.of_le hle⟩
    · cases (hfinished g rfl).symm.trans hfin

/-- A counterpart had its turn before when the group that it is the counterpart of had. -/
theorem turn_mem_pre (hsplit : m.bodyGroups = pre ++ G :: post)
    (hsplit' : m'.bodyGroups = pre' ++ turn G :: post') (hH : H ∈ pre) {f g : FunctionDecl}
    (hf : f ∈ m.members G) (hg : g ∈ m.members H) (hname : g.name ∈ f.references) :
    turn H ∈ pre' := by
  have hG : G ∈ m.bodyGroups := by rw [hsplit]; simp
  have hHmem : H ∈ m.bodyGroups := by rw [hsplit]; exact List.mem_append_left _ hH
  obtain ⟨-, f', hf', -, hreferences, -⟩ := h.exists_counterpart hG hf
  obtain ⟨-, g', hg', hgname, -⟩ := h.exists_counterpart hHmem hg
  refine (Module.mem_pre_of_references hsplit' hf' (hreferences ▸ hname) (h.mem_turn hHmem) hg'
    hgname).resolve_left fun heq => ?_
  -- the functions of the group with the counterpart of another group would share their names
  obtain ⟨-, name, hall⟩ := h.turn G hG
  obtain ⟨k, hk, hcounter⟩ := exists_mem_of_forall₂ hall (heq ▸ hg')
  obtain ⟨ρ, rfl, -⟩ := hcounter.renamed
  exact Module.not_mem_pre hsplit hk H hH g hg hgname.symm

/-- Whatever the bodies of a group refer to is alike when the group has its turn. -/
theorem alikeGlobal (hsplit : m.bodyGroups = pre ++ G :: post)
    (hsplit' : m'.bodyGroups = pre' ++ turn G :: post')
    (hall : List.Forall₂ (P.Counterpart name) (m.members G) (m'.members (turn G)))
    (ih : ∀ H ∈ pre, P.TurnsAlike m m' config log turn H) {f : FunctionDecl} (hf : f ∈ m.members G)
    {n : Name} (hn : n = f.name ∨ n ∈ f.references) :
    Option.Rel ((h.resumed hsplit hsplit' name).AlikeGlobal
      ((m.before config log G).store, (m'.before config log (turn G)).store))
        (m.before config log G).globals[n]? (m'.before config log (turn G)).globals[n]? := by
  have hG : G ∈ m.bodyGroups := by rw [hsplit]; simp
  obtain ⟨_, -, hcounter⟩ := exists_mem_of_forall₂ hall.flip hf
  by_cases hdefined : ∃ H ∈ m.bodyGroups, ∃ g ∈ m.members H, g.name = n
  · obtain ⟨H, hH, g, hg, rfl⟩ := hdefined
    by_cases hHG : H = G
    · subst hHG
      obtain ⟨_, -, hcounter⟩ := exists_mem_of_forall₂ hall.flip hg
      obtain ⟨ty, ty', hty, hty', -, halike⟩ :=
        h.provisional_before hsplit hsplit' hg hcounter.of_eq
      rw [hty, hty']
      exact .some ⟨rfl, (fun hfin => by cases hfin), fun _ => halike⟩
    · have href : g.name ∈ f.references := hn.resolve_left fun heq =>
        hHG (Module.eq_of_name_eq hH hg hG hf heq)
      have hpre := (Module.mem_pre_of_references hsplit hf href hH hg rfl).resolve_left hHG
      exact h.alikeGlobal_of_mem_pre hsplit hsplit' hpre
        (h.turn_mem_pre hsplit hsplit' hpre hf hg href) (ih H hpre) hg _
  · have hnames : n ∈ P.names := by
      rcases hn with rfl | hn
      · exact hcounter.mem
      · exact hcounter.references n hn
    exact h.alikeGlobal_of_no_group hsplit hsplit' hnames
      (fun H hH g hg heq => hdefined ⟨H, hH, g, hg, heq⟩) _

/-- The two walks over a group and its counterpart. -/
def side (hsplit : m.bodyGroups = pre ++ G :: post)
    (hsplit' : m'.bodyGroups = pre' ++ turn G :: post') (name : Name) : SideBySide where
  R := h.resumed hsplit hsplit' name
  base := P.base
  context := (m.before config log G).context
  context' := (m'.before config log (turn G)).context
  names := { n | ∃ f ∈ m.members G, n = f.name ∨ n ∈ f.references }
  logs := ((m.before config log G).log, (m'.before config log (turn G)).log)
  suits := suits_resume _ _ h.branches.left.1.le h.branches.right.1.le

theorem branches_before (hsplit : m.bodyGroups = pre ++ G :: post)
    (hsplit' : m'.bodyGroups = pre' ++ turn G :: post') : Branches P.base
      ((m.before config log G).store, (m'.before config log (turn G)).store) :=
  h.branches.trans (Module.runs_before config log hsplit).store
    (Module.runs_before config log hsplit').store

/-- A scheme of the common store is the same when a group has its turn. -/
theorem same_before (hsplit : m.bodyGroups = pre ++ G :: post)
    (hsplit' : m'.bodyGroups = pre' ++ turn G :: post') {ty : TypeId} (hty : P.base.IsScheme ty) :
    Same ((m.before config log G).store, (m'.before config log (turn G)).store) ty ty :=
  same_of_isScheme hty (h.branches_before hsplit hsplit').left.1.le
    (h.branches_before hsplit hsplit').right.1.le

theorem sees_before (hsplit : m.bodyGroups = pre ++ G :: post)
    (hsplit' : m'.bodyGroups = pre' ++ turn G :: post')
    (hall : List.Forall₂ (P.Counterpart name) (m.members G) (m'.members (turn G)))
    (ih : ∀ H ∈ pre, P.TurnsAlike m m' config log turn H) :
    (h.side hsplit hsplit' name).Sees
      ((m.before config log G).store, (m'.before config log (turn G)).store) where
  traits := by
    change (m'.before config log (turn G)).traits = (m.before config log G).traits
    rw [(Module.runs_before config log hsplit').traits, h.traits,
      (Module.runs_before config log hsplit).traits]
  methods hm := by
    change (m.before config log G).traits.method? _ = some _ at hm
    rw [(Module.runs_before config log hsplit).traits] at hm
    exact h.same_before hsplit hsplit' (h.schemes.methods.method hm)
  globals n hn := by
    obtain ⟨f, hf, hn⟩ := hn
    exact h.alikeGlobal hsplit hsplit' hall ih hf hn

/-- The states in which a group and its counterpart have their turns are in step. -/
theorem inCheck_before (hsplit : m.bodyGroups = pre ++ G :: post)
    (hsplit' : m'.bodyGroups = pre' ++ turn G :: post')
    (hall : List.Forall₂ (P.Counterpart name) (m.members G) (m'.members (turn G))) :
    (h.side hsplit hsplit' name).InCheck { n | ∃ f ∈ m.members G, f.name = n }
      ((m.before config log G).store, (m'.before config log (turn G)).store)
      (m.before config log G) (m'.before config log (turn G)) where
  stores := ⟨⟨rfl, rfl, lockstep_resume (h.suits name) (prepared_le_before config log hsplit hsplit')⟩,
    h.branches_before hsplit hsplit'⟩
  traits := by
    rw [(Module.runs_before config log hsplit').traits, h.traits,
      (Module.runs_before config log hsplit).traits]
  impls e he := by
    rw [(Module.runs_before config log hsplit).traits] at he
    exact h.same_before hsplit hsplit' (h.schemes.impls e he)
  globals := by
    rintro _ ⟨f, hf, rfl⟩
    obtain ⟨_, -, hcounter⟩ := exists_mem_of_forall₂ hall.flip hf
    obtain ⟨ty, ty', hty, hty', -⟩ := h.provisional_before hsplit hsplit' hf hcounter.of_eq
    rw [hty, hty']
    exact .some ⟨rfl, fun hfin => by cases hfin⟩
  log := .start _ _

omit h in
/-- The members of two groups, one by one. -/
theorem forall₂_members {s s' : CheckState} {group group' : List FunctionDecl}
    {r : FunctionDecl × TypeId → FunctionDecl × TypeId → Prop}
    (h : List.Forall₂ (fun f f' => ∃ ty ty', s.globals[f.name]? = some ⟨ty, false⟩ ∧
      s'.globals[f'.name]? = some ⟨ty', false⟩ ∧ r (f, ty) (f', ty')) group group') :
    List.Forall₂ r (s.members group) (s'.members group') := by
  induction h with
  | nil => exact .nil
  | cons hff _ ih =>
    obtain ⟨ty, ty', hty, hty', hr⟩ := hff
    unfold CheckState.members at ih ⊢
    rw [List.filterMap_cons, List.filterMap_cons, hty, hty']
    exact .cons hr ih

theorem alikeWaiting_members (hsplit : m.bodyGroups = pre ++ G :: post)
    (hsplit' : m'.bodyGroups = pre' ++ turn G :: post')
    (hall : List.Forall₂ (P.Counterpart name) (m.members G) (m'.members (turn G))) :
    List.Forall₂ (SideBySide.AlikeWaiting (h.side hsplit hsplit' name)
      ((m.before config log G).store, (m'.before config log (turn G)).store))
      ((m.before config log G).members (m.members G))
      ((m'.before config log (turn G)).members (m'.members (turn G))) := by
  refine forall₂_members (forall₂_of_mem hall fun f hf f' hcounter => ?_)
  obtain ⟨ty, ty', hty, hty', hsig, halike⟩ :=
    h.provisional_before hsplit hsplit' hf hcounter.of_eq
  obtain ⟨ρ, rfl, hfollows⟩ := hcounter.renamed
  refine ⟨ty, ty', hty, hty', ⟨⟨ρ, fun node hnode => ⟨?_, fun n hn => ?_⟩, rfl⟩, halike⟩, hsig⟩
  · rw [hcounter.of_eq] at hfollows
    exact (hfollows.resume (h.suits name) (prepared_le_before config log hsplit hsplit')).node hnode
  · exact ⟨f, hf, .inr (FunctionDecl.mem_references_of_ident? hnode hn)⟩

/-- A group is checked in step with its counterpart, if the groups before it were. -/
theorem turnsAlike_of_pre (hsplit : m.bodyGroups = pre ++ G :: post)
    (ih : ∀ H ∈ pre, P.TurnsAlike m m' config log turn H) :
    P.TurnsAlike m m' config log turn G := by
  have hG : G ∈ m.bodyGroups := by rw [hsplit]; simp
  obtain ⟨hmem, name, hall⟩ := h.turn G hG
  obtain ⟨pre', post', hsplit'⟩ := List.append_of_mem hmem
  -- other turns may have added other types to the two stores, so the renaming starts again from here
  obtain ⟨w, -, hin⟩ := SideBySide.inCheck_checkGroup config (h.inCheck_before hsplit hsplit' hall)
    rfl rfl rfl (h.sees_before hsplit hsplit' hall ih) (h.alikeWaiting_members hsplit hsplit' hall)
  obtain ⟨w₁, w₂⟩ := w
  obtain rfl : w₁ = (m.after config log G).store := hin.stores.left
  obtain rfl : w₂ = (m'.after config log (turn G)).store := hin.stores.right
  refine ⟨fun f hf => hin.globals f.name ⟨f, hf, rfl⟩, h.resumed hsplit hsplit' name, ?_, hin.log⟩
  intro hplain
  obtain ⟨i, hi⟩ := List.exists_mem_of_ne_nil G (m.components_bodyGroups.1.nonempty G hG)
  obtain ⟨f, hf⟩ := Module.mem_flatten_bodyGroups.mp (List.mem_flatten_of_mem hG hi)
  have hmember := Module.mem_members_of_defines hi hf
  obtain ⟨_, -, hcounter⟩ := exists_mem_of_forall₂ hall.flip hmember
  refine plain_resume (h.suits name) (prepared_le_before config log hsplit hsplit') ?_
  rw [← hcounter.of_eq]
  exact hplain f hmember

/-- Every group is checked in step with its counterpart. -/
theorem turnsAlike (hG : G ∈ m.bodyGroups) : P.TurnsAlike m m' config log turn G := by
  obtain ⟨pre, post, hsplit⟩ := List.append_of_mem hG
  -- on the number of turns before: what a group refers to had its turn earlier
  induction hn : pre.length using Nat.strongRecOn generalizing pre post G with
  | ind n ih =>
    refine h.turnsAlike_of_pre hsplit fun H hH => ?_
    obtain ⟨pre₁, mid, rfl⟩ := List.append_of_mem hH
    have hsplit₁ : m.bodyGroups = pre₁ ++ H :: (mid ++ G :: post) := by
      rw [hsplit, List.append_assoc, List.cons_append]
    refine ih pre₁.length ?_ (by rw [hsplit₁]; simp) pre₁ _ hsplit₁ rfl
    rw [← hn, List.length_append, List.length_cons]
    omega

end Corresponds

end SignaturePair

end ConstraintTyping
