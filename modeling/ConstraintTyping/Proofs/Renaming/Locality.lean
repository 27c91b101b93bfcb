import ConstraintTyping.Proofs.Check.Accepted
import ConstraintTyping.Proofs.Check.OpenFields
import ConstraintTyping.Proofs.Renaming.Outcomes

/-!
# Type-variable names are local

A function can write another name for one of its type variables.  The types of the functions in its
group are then those from before, with the one variable renamed; all other types stay.  So the two
checks go in step, as long as the name is written nowhere else in the group, and in no field of a
declared type over whose parameters it is not.
-/

namespace ConstraintTyping

open Store CheckM CheckState Renaming

/-! ## The same groups -/

/-- A change of one element is not seen by a function that takes both to the same. -/
theorem map_modify_of_eq {α β : Type} {f : α → α} {g : α → β} (h : ∀ a, g (f a) = g a) (l : List α)
    (i : Nat) : (l.modify i f).map g = l.map g := by
  induction l generalizing i with
  | nil => rw [List.modify_nil]
  | cons a l ih =>
    cases i with
    | zero => exact congrArg (· :: l.map g) (h a)
    | succ i => rw [List.modify_succ_cons, List.map_cons, List.map_cons, ih]

namespace Module

/-- The names of the functions of a module, and which of them have bodies. -/
def outlines (m : Module) : List (Name × Bool) := m.functions.map fun f => (f.name, f.body.isSome)

variable {m m' : Module}

theorem bodyIndex?_congr (h : m'.outlines = m.outlines) : m'.bodyIndex? = m.bodyIndex? := by
  have hindex : ∀ (m : Module) name, m.bodyIndex? name =
      (m.outlines.findIdx? (·.1 = name)).filter fun i => m.outlines[i]?.any (·.2) := by
    intro m name
    rw [bodyIndex?, firstIndex?, outlines, List.findIdx?_map]
    simp only [List.getElem?_map, Option.any_map, Function.comp_def]
  funext name
  rw [hindex, hindex, h]

theorem bodyIndices_congr (h : m'.outlines = m.outlines) : m'.bodyIndices = m.bodyIndices := by
  have hindices : ∀ m : Module, m.bodyIndices =
      (m.outlines.zipIdx.filter fun (o, i) => m.bodyIndex? o.1 = some i).map (·.2) := by
    intro m
    rw [bodyIndices, outlines, List.zipIdx_map, List.filter_map, List.map_map]
    rfl
  rw [hindices, hindices, h, bodyIndex?_congr h]

/-- The groups depend on the names of the functions, on which have bodies and on what these refer to
among them. -/
theorem bodyGroups_congr (h : m'.outlines = m.outlines)
    (hcallees : m'.functions.map (fun f => f.references.filterMap m.bodyIndex?) =
      m.functions.map fun f => f.references.filterMap m.bodyIndex?) :
    m'.bodyGroups = m.bodyGroups := by
  have hlength : m'.functions.length = m.functions.length := by
    simpa [outlines] using congrArg List.length h
  rw [bodyGroups, bodyGroups, bodyIndices_congr h, callGraph, callGraph, bodyIndex?_congr h,
    hcallees, hlength]

/-- A module in which the function at a position writes `u` for its type variable `t`. -/
def renameFunction (m : Module) (i : Nat) (t u : Name) : Module :=
  { m with functions := m.functions.modify i (FunctionDecl.renameVars (Function.update id t u)) }

variable {i j : Nat} {t u : Name} {f : FunctionDecl}

theorem getElem?_renameFunction_self (h : m.functions[i]? = some f) :
    (m.renameFunction i t u).functions[i]? = some (f.renameVars (Function.update id t u)) := by
  rw [renameFunction, List.getElem?_modify, h]
  exact congrArg some (if_pos rfl)

theorem getElem?_renameFunction_ne (h : j ≠ i) :
    (m.renameFunction i t u).functions[j]? = m.functions[j]? := by
  rw [renameFunction, List.getElem?_modify]
  simp [h.symm]

theorem bodyGroups_renameFunction : (m.renameFunction i t u).bodyGroups = m.bodyGroups := by
  refine bodyGroups_congr (map_modify_of_eq (fun f => ?_) m.functions i)
    (map_modify_of_eq (fun f => ?_) m.functions i)
  · simp [FunctionDecl.renameVars]
  · rw [FunctionDecl.references_renameVars]

end Module

/-! ## The renaming -/

namespace Renaming

/-- The variable of one name stands for that of another name, which nothing else stands for. -/
def rename (t u : Name) : Renaming where
  name
    | .named n => .named (Function.update id t u n)
    | .fresh n => .fresh n
  dom := { x | x ≠ .named u }
  injOn := by
    rintro (m | m) hm (n | n) hn heq
    · by_cases hmt : m = t <;> by_cases hnt : n = t <;>
        simp_all
    · cases heq
    · cases heq
    · exact heq

variable {t u n : Name} {base : Store} {V : Set Name} {f : FunctionDecl}

theorem named_rename (h : n ≠ u) : .named n ∈ (rename t u).dom ∧
    (rename t u).name (.named n) = .named (Function.update id t u n) :=
  ⟨fun heq => h (by injection heq), rfl⟩

theorem named_rename_of_ne (ht : n ≠ t) (hu : n ≠ u) :
    .named n ∈ (rename t u).dom ∧ (rename t u).name (.named n) = .named n := by
  obtain ⟨hdom, hname⟩ := named_rename (t := t) hu
  rw [Function.update_of_ne ht] at hname
  exact ⟨hdom, hname⟩

theorem fresh_rename (t u : Name) (n : Nat) :
    .fresh n ∈ (rename t u).dom ∧ (rename t u).name (.fresh n) = .fresh n :=
  ⟨fun heq => (by cases heq), rfl⟩

theorem suits_rename (h : base.OpenWithin V) (ht : t ∉ V) (hu : u ∉ V) :
    (rename t u).Suits base where
  named {n} _ := ⟨_, rfl⟩
  fresh {n} _ := ⟨n, rfl⟩
  old {n} _ := fresh_rename t u n
  field hd hbody f hf n hn hparam := by
    have hV : n ∈ V := ((h.fields hd hbody f hf).named n hn).resolve_left hparam
    exact named_rename_of_ne (fun heq => ht (heq ▸ hV)) fun heq => hu (heq ▸ hV)

theorem followsIn_rename (hu : u ∉ f.typeVars) :
    (rename t u).FollowsIn (Function.update id t u) f := fun _ hn =>
  named_rename fun heq => hu (heq ▸ hn)

theorem followsIn_rename_id (ht : t ∉ f.typeVars) (hu : u ∉ f.typeVars) :
    (rename t u).FollowsIn id f := fun _ hn =>
  named_rename_of_ne (fun heq => ht (heq ▸ hn)) fun heq => hu (heq ▸ hn)

theorem followsIn_refl (f : FunctionDecl) : refl.FollowsIn id f := fun _ _ => ⟨trivial, rfl⟩

end Renaming

/-! ## The function and its group -/

namespace Module

/-- The type variable `t` of the function at a position can be called `u`: both names are local to the
group of that function, and in the group only that function writes `t`. -/
structure CanRename (m : Module) (i : Nat) (t u : Name) : Prop where
  /-- No other member of the group writes the name. -/
  group : ∀ G ∈ m.bodyGroups, i ∈ G → ∀ j ∈ G, j ≠ i →
    ∀ g, m.functions[j]? = some g → t ∉ g.typeVars
  /-- The fields of declared types write it as a parameter at most. -/
  types : ∀ d ∈ m.types, t ∉ d.openVars
  unused : ∀ f ∈ m.functions, u ∉ f.typeVars
  unused_types : ∀ d ∈ m.types, u ∉ d.openVars

/-- The names whose types can have the type variables of the function at a position: its own, if it is
the first of that name, and those of its group. -/
def InScope (m : Module) (i : Nat) (name : Name) : Prop :=
  (∃ f, m.functions[i]? = some f ∧ f.name = name ∧
    ∀ j < i, ∀ g, m.functions[j]? = some g → g.name ≠ name) ∨
  ∃ G ∈ m.bodyGroups, i ∈ G ∧ ∃ g ∈ m.members G, g.name = name

variable (m : Module) (config : CheckConfig) (log : DiagnosticLog) (i : Nat) (t u : Name)

open scoped Classical in
/-- The signatures of a module beside those after the renaming of a type variable. -/
noncomputable def renamedPair : SignaturePair where
  R := refl
  base := (m.registered config log).store
  of := fun name => if m.InScope i name then rename t u else refl
  names := Set.univ
  logs := ((m.registered config log).log, (m.registered config log).log)
  agrees := fun name n _ => by
    split
    · exact fresh_rename t u n
    · exact ⟨trivial, rfl⟩

variable {m i t u} {G : List Nat} {f g : FunctionDecl} {j : Nat}

theorem of_renamedPair (h : m.InScope i f.name) :
    (m.renamedPair config log i t u).of f.name = rename t u := if_pos h

theorem of_renamedPair_of_not (h : ¬ m.InScope i f.name) :
    (m.renamedPair config log i t u).of f.name = refl := if_neg h

/-- A member of a group is in scope exactly if the function is in that group. -/
theorem inScope_iff (hG : G ∈ m.bodyGroups) (hf : f ∈ m.members G) :
    m.InScope i f.name ↔ i ∈ G := by
  obtain ⟨k, hk, hdef⟩ := defines_of_mem_members hG hf
  constructor
  · rintro (⟨f', hf', hname, hfirst⟩ | ⟨H, hH, hiH, g, hg, hname⟩)
    · rcases Nat.lt_trichotomy k i with hlt | rfl | hgt
      · exact absurd rfl (hfirst k hlt f hdef.at_index)
      · exact hk
      · exact absurd hname (hdef.first i hgt f' hf')
    · rwa [eq_of_name_eq hG hf hH hg hname.symm]
  · exact fun hi => .inr ⟨G, hG, hi, f, hf, rfl⟩

/-- Another function writes no type variable that is renamed in its own signature. -/
theorem followsIn_renamedPair (h : m.CanRename i t u) (hj : m.functions[j]? = some f)
    (hfirst : ∀ k < j, ∀ g, m.functions[k]? = some g → g.name ≠ f.name) (hne : j ≠ i) :
    ((m.renamedPair config log i t u).of f.name).FollowsIn id f := by
  have hmem := List.mem_of_getElem? hj
  by_cases hscope : m.InScope i f.name
  · rw [of_renamedPair config log hscope]
    refine followsIn_rename_id ?_ (h.unused f hmem)
    rcases hscope with ⟨f', hf', hname, hfirst'⟩ | ⟨G, hG, hiG, g, hg, hname⟩
    · rcases Nat.lt_or_gt_of_ne hne with hlt | hgt
      · exact absurd rfl (hfirst' j hlt f hj)
      · exact absurd hname (hfirst i hgt f' hf')
    · obtain ⟨k, hk, hdef⟩ := defines_of_mem_members hG hg
      rcases Nat.lt_trichotomy k j with hlt | rfl | hgt
      · exact absurd hname (hfirst k hlt g hdef.at_index)
      · exact h.group G hG hiG k hk hne f hj
      · exact absurd hname.symm (hdef.first j hgt f hj)
  · rw [of_renamedPair_of_not config log hscope]
    exact followsIn_refl f

/-- The functions are beside each other. -/
theorem beside_renameFunction (h : m.CanRename i t u) :
    (m.renamedPair config log i t u).Beside [] m.functions (m.renameFunction i t u).functions where
  length_eq := List.length_modify ..
  at_index j f hf := by
    refine ⟨trivial, ?_⟩
    have hlater : (∀ g ∈ [] ++ m.functions.take j, g.name ≠ f.name) →
        ∀ k < j, ∀ g, m.functions[k]? = some g → g.name ≠ f.name := fun hnew k hk g hg =>
      hnew g (List.mem_of_getElem? (i := k) (by rw [List.nil_append, List.getElem?_take_of_lt hk, hg]))
    by_cases hj : j = i
    · subst hj
      refine ⟨_, getElem?_renameFunction_self hf, fun hnew => ?_⟩
      rw [of_renamedPair config log (.inl ⟨f, hf, rfl, hlater hnew⟩)]
      exact followsIn_rename (h.unused f (List.mem_of_getElem? hf))
    · refine ⟨id, by rw [getElem?_renameFunction_ne hj, hf, f.renameVars_id], fun hnew => ?_⟩
      exact followsIn_renamedPair config log h hf (hlater hnew) hj

/-- Signatures are collected in step. -/
theorem inCollect_renameFunction (h : m.CanRename i t u) :
    ∃ w, (m.renamedPair config log i t u).InCollect w (m.prepared config log)
      ((m.renameFunction i t u).prepared config log) := by
  have hregistered := m.collected_registered config log
  have hstay : (m.registered config log).GoesOn (m.registered config log) :=
    ⟨⟨.refl _, hregistered.registered.coherent⟩, rfl⟩
  have hstart : (m.renamedPair config log i t u).InCollect
      ((m.registered config log).store, (m.registered config log).store)
      (m.registered config log) (m.registered config log) := by
    refine ⟨⟨⟨rfl, rfl, fun k => ⟨trivial, rfl⟩⟩,
      branches_of_goesOn hregistered.registered hstay hstay⟩, rfl, fun name _ => ?_, .start _ _⟩
    -- no function has a type yet
    have hglobal := @hregistered.global name
    generalize (m.registered config log).globals[name]? = o at hglobal ⊢
    cases o with
    | none => exact .none
    | some g =>
      obtain ⟨f, hf, -⟩ := hglobal rfl
      cases hf
  obtain ⟨w, -, hin⟩ := SignaturePair.inCollect_collectSignatures hstart hregistered
    (beside_renameFunction config log h)
  exact ⟨w, hin⟩

/-- The members of a group go under the same renaming. -/
theorem of_renamedPair_eq (hG : G ∈ m.bodyGroups) (hf : f ∈ m.members G) (hg : g ∈ m.members G) :
    (m.renamedPair config log i t u).of f.name = (m.renamedPair config log i t u).of g.name := by
  simp only [renamedPair, inScope_iff hG hf, inScope_iff hG hg]

/-- The members of a group are beside each other. -/
theorem counterparts_renameFunction (h : m.CanRename i t u) (hG : G ∈ m.bodyGroups)
    (hg : g ∈ m.members G) : List.Forall₂ ((m.renamedPair config log i t u).Counterpart g.name)
      (m.members G) ((m.renameFunction i t u).members G) := by
  refine List.rel_filterMap (R := fun a b => a ∈ G ∧ a = b) ?_
    (List.forall₂_same.mpr fun j hj => ⟨hj, rfl⟩)
  rintro j _ ⟨hj, rfl⟩
  obtain ⟨f, hf⟩ := mem_flatten_bodyGroups.mp (List.mem_flatten_of_mem hG hj)
  have hmem := mem_members_of_defines hj hf
  have hof := of_renamedPair_eq (i := i) (t := t) (u := u) config log hG hmem hg
  dsimp only
  by_cases hji : j = i
  · subst hji
    rw [getElem?_renameFunction_self hf.at_index, hf.at_index]
    refine .some ⟨hof, trivial, fun _ _ => trivial, _, rfl, ?_⟩
    rw [of_renamedPair config log ((inScope_iff hG hmem).mpr hj)]
    exact followsIn_rename (h.unused f (List.mem_of_getElem? hf.at_index))
  · rw [getElem?_renameFunction_ne hji, hf.at_index]
    exact .some ⟨hof, trivial, fun _ _ => trivial, id, f.renameVars_id.symm,
      followsIn_renamedPair config log h hf.at_index hf.first hji⟩

/-- A module and the one after the renaming correspond. -/
theorem corresponds_renameFunction (h : m.CanRename i t u) :
    (m.renamedPair config log i t u).Corresponds m (m.renameFunction i t u) config log id := by
  obtain ⟨⟨_, _⟩, hin⟩ := inCollect_renameFunction config log h
  obtain rfl := hin.stores.left
  obtain rfl := hin.stores.right
  refine ⟨hin.stores.branches, hin.traits, ?_, fun name => ?_, hin.globals, fun G hG => ?_⟩
  · rw [prepared_eq, (m.goesOn_collected config log m.functions).traits]
    exact m.hasSchemes_registered config log
  · by_cases hscope : m.InScope i name
    · have hof : (m.renamedPair config log i t u).of name = rename t u := if_pos hscope
      rw [hof]
      exact suits_rename (m.openWithin_registered config log)
        (fun ⟨d, hd, hn⟩ => h.types d hd hn) fun ⟨d, hd, hn⟩ => h.unused_types d hd hn
    · have hof : (m.renamedPair config log i t u).of name = refl := if_neg hscope
      rw [hof]
      exact suits_refl _
  · refine ⟨by rw [bodyGroups_renameFunction]; exact hG, ?_⟩
    obtain ⟨j, hj⟩ := List.exists_mem_of_ne_nil G (m.components_bodyGroups.1.nonempty G hG)
    obtain ⟨g, hg⟩ := mem_flatten_bodyGroups.mp (List.mem_flatten_of_mem hG hj)
    exact ⟨g.name, counterparts_renameFunction config log h hG (mem_members_of_defines hj hg)⟩

/-- Type-variable names are local: calling a type variable of a function by a name that is not in use
changes no final type of a function with a body, as it is printed, and the same kinds of faults are
reported at the same places. -/
theorem check_renameFunction (h : m.CanRename i t u) :
    (∀ name, (∀ f, m.functions[i]? = some f → f.name = name → f.body.isSome) →
      ((m.renameFunction i t u).check config log).functionText? name =
        (m.check config log).functionText? name) ∧
    ((m.renameFunction i t u).check config log).log.entries.toList.map Diagnostic.place =
      (m.check config log).log.entries.toList.map Diagnostic.place := by
  have hcorr := corresponds_renameFunction config log h
  have hprepared : (m.prepared config log).log.SameReports
      ((m.renameFunction i t u).prepared config log).log := by
    obtain ⟨w, hin⟩ := inCollect_renameFunction config log h
    exact hin.log.sameReports ⟨rfl, rfl⟩
  obtain ⟨pre, hpre, hpre'⟩ := hcorr.exists_wentThrough bodyGroups_renameFunction hprepared
  refine ⟨fun name hbody => ?_, ?_⟩
  -- a name is that of a member of a group, or the first function of that name has no body
  · by_cases hdefined : ∃ G ∈ m.bodyGroups, ∃ f ∈ m.members G, f.name = name
    · obtain ⟨G, hG, f, hf, rfl⟩ := hdefined
      exact hcorr.functionText?_of_mem hpre hpre' hG Iff.rfl hf
    · have hnone : ∀ G ∈ m.bodyGroups, ∀ f ∈ m.members G, f.name ≠ name :=
        fun G hG f hf heq => hdefined ⟨G, hG, f, hf, heq⟩
      have hscope : ¬ m.InScope i name := by
        rintro (⟨f, hf, rfl, hfirst⟩ | hgroup)
        · obtain ⟨G, hG, hiG⟩ := List.mem_flatten.mp
            (mem_flatten_bodyGroups.mpr ⟨f, hf, hbody f hf rfl, hfirst⟩)
          exact hdefined ⟨G, hG, f, mem_members_of_defines hiG ⟨hf, hbody f hf rfl, hfirst⟩, rfl⟩
        · obtain ⟨G, hG, -, hgroup⟩ := hgroup
          exact hdefined ⟨G, hG, hgroup⟩
      have hof : (m.renamedPair config log i t u).of name = refl := if_neg hscope
      refine hcorr.functionText?_of_no_group hpre hpre' trivial (hof ▸ plain_refl) hnone ?_
      intro G hG f' hf'
      rw [bodyGroups_renameFunction] at hG
      obtain ⟨-, name, hall⟩ := hcorr.turn G hG
      obtain ⟨f, hf, -, -, -, ρ, rfl, -⟩ := exists_mem_of_forall₂ hall hf'
      exact hnone G hG f hf
  · obtain ⟨post, hsplit⟩ := hpre.groups
    rw [hpre.log_eq, hpre'.log_eq]
    exact (hcorr.sameReports_reached bodyGroups_renameFunction hprepared hsplit).places

theorem canRename_partners : (partners "a" "b").CanRename 0 "a" "c" where
  group G hG _ j hj hne g hg := by
    rw [bodyGroups_partners, List.mem_singleton] at hG
    subst hG
    obtain rfl : j = 1 := by simpa [hne] using hj
    obtain rfl := Option.some.inj hg
    decide
  types := by simp [partners]
  unused := by decide
  unused_types := by simp [partners]

/-- Two functions that refer to each other write names of their own, one of which is changed. -/
theorem check_renameFunction_partners :
    let m := partners "a" "b"
    m.CanRename 0 "a" "c" ∧
      ((m.renameFunction 0 "a" "c").check {} {}).functionText? "left" =
        (m.check {} {}).functionText? "left" ∧
      ((m.renameFunction 0 "a" "c").check {} {}).log.entries.toList.map Diagnostic.place =
        (m.check {} {}).log.entries.toList.map Diagnostic.place := by
  obtain ⟨htexts, hplaces⟩ := check_renameFunction {} {} canRename_partners
  refine ⟨canRename_partners, htexts "left" fun f hf _ => ?_, hplaces⟩
  obtain rfl := Option.some.inj hf
  rfl

end Module

/-! ## A name that the group shares -/

section Shared

open TypeTree

variable {name other prim v : Name} {first : ExprId}

variable {W : Surroundings} {S S' : Found} {Γ Δ : Env}

/-- A name that is local, or that of a function that is not finished, asks for nothing. -/
theorem Finds.ident {id : ExprId} {span : Span} {t : TypeTree}
    (hname : Γ.lookup name = none → ∀ g, W.names name ≠ some ⟨g, true⟩)
    (h : Finds W S Γ (.mk id span (.ident name)) t S' Δ) :
    S'.equations = S.equations ∧ Δ = Γ ∧ ∀ u, Γ.lookup name = some u → t = u := by
  cases h with
  | mk h hreaches =>
    cases h with
    | literal hlit => cases hlit
    | localName hlocal => exact ⟨rfl, rfl, fun u hu => Option.some.inj (hlocal.symm.trans hu)⟩
    | generalName hlocal hgeneral => exact absurd hgeneral (hname hlocal _)
    | fixedName hlocal => exact ⟨rfl, rfl, fun u hu => by rw [hlocal] at hu; cases hu⟩

theorem BodyFinds.partner {x ret : TypeTree} (hname : ∀ g, W.names other ≠ some ⟨g, true⟩)
    (h : BodyFinds W S (partnerFn name other prim v first) (partnerBody other first) [x] ret S') :
    S'.equations = S.equations ++ [(ret, x)] := by
  obtain ⟨t, S₁, Δ, hfinds, rfl⟩ := h
  cases hfinds with
  | mk hblock hreaches =>
    cases hblock with
    | literal hlit => cases hlit
    | block hitems =>
      cases hitems with
      | cons hcallee hitems =>
        cases hitems with
        | cons hlast hnil =>
          cases hnil
          obtain ⟨hequations, rfl, -⟩ := hcallee.ident fun _ => hname
          obtain ⟨hequations', -, hu⟩ := hlast.ident fun hnone => by cases hnone
          rw [← hu x rfl]
          exact congrArg (· ++ _) (hequations'.trans hequations)

theorem not_general {s : CheckState} {ty : TypeId} (h : s.globals[name]? = some ⟨ty, false⟩)
    (g : TypeTree) : (s.context.surroundings s.store).names name ≠ some ⟨g, true⟩ := by
  intro hname
  change s.context.scheme? s.store name = some ⟨g, true⟩ at hname
  unfold FindContext.scheme? at hname
  rw [show s.context.globals[name]? = some ⟨ty, false⟩ from h] at hname
  cases hname

/-- The bodies ask for each result variable to be the type of the parameter. -/
theorem equations_partners {s : CheckState} {t : Name} {total : Found} {T : Store}
    (hs : s.Waits (partners t v).functions) (hclean : s.Clean) (hle : s.store ≤ T)
    (h : GroupFinds (s.context.surroundings s.store) T ⟨s.store.vars, [], [], []⟩
      (s.members (partners t v).functions) total) :
    total.equations =
      [(var (.named t), TypeTree.prim .i32), (var (.named v), TypeTree.prim .bool)] := by
  obtain ⟨left, hleft, hleftSig, -⟩ := hs.waits _ List.mem_cons_self
  obtain ⟨right, hright, hrightSig, -⟩ := hs.waits _ (List.mem_cons_of_mem _ List.mem_cons_self)
  rw [members_partners hleft hright] at h
  obtain ⟨sig, x, hsig, hparams, hret, hx⟩ := hleftSig.of_param rfl rfl rfl hclean hle
  obtain ⟨sig', y, hsig', hparams', hret', hy⟩ := hrightSig.of_param rfl rfl rfl hclean hle
  cases h with
  | cons hsig₁ hbody hfinds hrest =>
    cases hrest with
    | cons hsig₂ hbody' hfinds' hnil =>
      cases hnil
      obtain rfl := Option.some.inj hbody
      obtain rfl := Option.some.inj hbody'
      obtain rfl := Option.some.inj (hsig₁.symm.trans hsig)
      obtain rfl := Option.some.inj (hsig₂.symm.trans hsig')
      rw [hparams, List.map_singleton, hret, hx] at hfinds
      rw [hparams', List.map_singleton, hret', hy] at hfinds'
      rw [hfinds'.partner (not_general hleft), hfinds.partner (not_general hright)]
      rfl

/-- One variable cannot be two types. -/
theorem not_solvesInOrder_twice {limit : Nat} {x : VarIdent} {last : Bound} :
    ¬ SolvesInOrder limit [] [(var x, TypeTree.prim .i32), (var x, TypeTree.prim .bool)] last := by
  intro hsolves
  have hleft : applyAll last (var x) = TypeTree.prim .i32 := by
    have hpinned := @SolvesInOrder.pinned _ [] last [] _ x (TypeTree.prim .i32) hsolves
      (by simp [Bound.Avoids]) (by simp) (not_occurs_prim _ _)
    rw [applyAll_prim] at hpinned
    exact hpinned.resolve_right (by simp [error])
  have hright := hsolves.compatible _ (List.mem_cons_of_mem _ List.mem_cons_self)
  rw [hleft, applyAll_prim] at hright
  cases hright with
  | parts hhead => exact hhead

namespace Module

section Texts

variable {m : Module} {config : CheckConfig} {log : DiagnosticLog} {s s₁ : CheckState}
  {group : List FunctionDecl} {gs : List (List FunctionDecl)} {f : FunctionDecl}

/-- What comes of a function in its turn is what is printed in the end. -/
theorem functionText?_of_turn (hready : s.Ready (group :: gs))
    (hrest : Runs config s₁ gs (m.checked config log)) (hf : f ∈ group) {ty : TypeId}
    (hty : s₁.functions[f.name]? = some ty) :
    (m.check config log).functionText? f.name = some ((m.check config log).store.print ty) := by
  rw [TypedModule.functionText?, TypedModule.functionType?, (m.shows_check config log).functions,
    (hrest.functions_of_mem hready hf).2, hty]
  rfl

/-- The functions of a group whose equations cannot be solved are printed as the error type. -/
theorem functionText?_eq_error (hready : s.Ready (group :: gs)) (hchecks : Checks config group s s₁)
    (hrest : Runs config s₁ gs (m.checked config log)) (hf : f ∈ group)
    (hunsolved : ∀ total last, s.store ≤ s₁.store → GroupFinds (s.context.surroundings s.store)
      s₁.store ⟨s.store.vars, [], [], []⟩ (s.members group) total →
      ¬ SolvesInOrder config.maxUnifySteps [] total.equations last) :
    (m.check config log).functionText? f.name = some "<error>" := by
  cases hchecks.ended with
  | failed _ _ hfunctions =>
    rw [functionText?_of_turn hready hrest hf (hfunctions f hf), print_error]
  | published hpub => exact absurd hpub.solves (hunsolved _ _ hchecks.store.1.le hpub.finds)

/-- The functions of a group that is accepted are not. -/
theorem functionText?_ne_error (hready : s.Ready (group :: gs)) (hchecks : Checks config group s s₁)
    (hrest : Runs config s₁ gs (m.checked config log)) (hf : f ∈ group)
    (haccepts : Accepts config group s) :
    (m.check config log).functionText? f.name ≠ some "<error>" := by
  cases hchecks.ended with
  | failed _ _ _ hrefused => exact absurd haccepts hrefused
  | published hpub =>
    have hwaits := hready.waits group List.mem_cons_self
    rw [← hwaits.map_members] at hf
    obtain ⟨member, hmember, rfl⟩ := List.mem_map.mp hf
    obtain ⟨ty, hty, hlt, sig, givens, ρ, -, -, -, htree⟩ := hpub.general member hmember
    have hle := hrest.store.1.le.trans (m.store_check config log hrest.ready).1.le
    rw [← tree_of_le hle hlt, subst_mk rfl] at htree
    rw [functionText?_of_turn hready hrest (hwaits.member hmember).1 hty]
    exact fun heq => print_ne_error htree (Option.some.inj heq)

end Texts

/-- Both functions have their turn at once. -/
theorem checks_partners (t v : Name) :
    let s := (partners t v).prepared {} {}
    s.Ready [(partners t v).functions] ∧ s.Clean ∧ ∃ s₁,
      Checks {} (partners t v).functions s s₁ ∧ Runs {} s₁ [] ((partners t v).checked {} {}) := by
  have hruns := (partners t v).runs_checked {} {} fun _ _ => rfl
  rw [groups_partners] at hruns
  cases hruns with
  | cons hready hchecks hrest => exact ⟨hready, clean_prepared_partners t v, _, hchecks, hrest⟩

/-- With one name there is an error. -/
theorem functionText?_partners_error (v : Name) :
    ((partners v v).check {} {}).functionText? "left" = some "<error>" := by
  obtain ⟨hready, hclean, s₁, hchecks, hrest⟩ := checks_partners v v
  refine functionText?_eq_error (f := partnerFn "left" "right" "i32" v 0) hready hchecks hrest
    List.mem_cons_self fun total last hle hfinds hsolves => ?_
  -- what is published is solved, which one variable against two types cannot be
  rw [equations_partners (hready.waits _ List.mem_cons_self) hclean hle hfinds] at hsolves
  exact not_solvesInOrder_twice hsolves

/-- With two names there is none. -/
theorem functionText?_partners_ne {t v : Name} (hne : t ≠ v) :
    ((partners t v).check {} {}).functionText? "left" ≠ some "<error>" := by
  obtain ⟨hready, hclean, s₁, hchecks, hrest⟩ := checks_partners t v
  exact functionText?_ne_error (f := partnerFn "left" "right" "i32" t 0) hready hchecks hrest
    List.mem_cons_self (accepts_partners (hready.waits _ List.mem_cons_self) hclean hne)

/-- A name that two members of a group write is one variable.  When one of them writes another name
instead, which is not in use, its type is printed differently. -/
theorem functionText?_renameFunction_partners :
    let m := partners "t" "t"
    m.types = [] ∧ m.traits = [] ∧ m.impls = [] ∧ (∀ f ∈ m.functions, "u" ∉ f.typeVars) ∧
      (∀ f ∈ m.functions, f.body.isSome) ∧
      ((m.renameFunction 0 "t" "u").check {} {}).functionText? "left" ≠
        (m.check {} {}).functionText? "left" := by
  refine ⟨rfl, rfl, rfl, by decide, by decide, ?_⟩
  have hrenamed : (partners "t" "t").renameFunction 0 "t" "u" = partners "u" "t" := rfl
  rw [hrenamed, functionText?_partners_error]
  exact functionText?_partners_ne (by decide)

end Module

end Shared

end ConstraintTyping
