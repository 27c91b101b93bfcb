import ConstraintTyping.Symbol
import Mathlib.Algebra.BigOperators.Fin
import Mathlib.Algebra.Order.BigOperators.Group.Finset

/-!
# Handles of strings

A table of strings only grows, and at the place that a handle names there is one string for good.
The map of a shard leads from a string to its position and the strings of the shard back; a request
goes by the map and a look-up by the strings, so both have to change together, and the count of the
table with them (`SymbolTable.Holds`).  A string is held once, in the shard that its first bytes
select; so a string has one handle, and two strings never share one.  Packed into a word, the shard
takes the upper four bits and the position the lower twenty-eight, which loses nothing as long as no
shard holds more strings than there are positions.
-/

namespace ConstraintTyping

/-! ## Words -/

namespace Symbol

variable {h h' : Symbol}

/-- A handle whose two parts have room in a word. -/
structure Fits (h : Symbol) : Prop where
  shard_lt : h.shard < shardCount
  position_lt : h.position < positionCount

theorem shardOf_lt (s : String) : (shardOf s).val < 16 := (shardOf s).isLt

theorem Fits.raw_lt (hf : h.Fits) : h.raw < 2 ^ 32 := by
  have hs := hf.shard_lt
  have hp := hf.position_lt
  simp only [raw, shardCount, positionCount] at *
  omega

theorem Fits.ofRaw_raw (hf : h.Fits) : ofRaw h.raw = h := by
  have hp := hf.position_lt
  have hpos : 0 < positionCount := by decide
  unfold ofRaw raw
  rw [Nat.add_comm, Nat.add_mul_div_right _ _ hpos, Nat.div_eq_of_lt hp, Nat.zero_add,
    Nat.add_mul_mod_self_right, Nat.mod_eq_of_lt hp]

theorem Fits.raw_inj (hf : h.Fits) (hf' : h'.Fits) : h.raw = h'.raw ↔ h = h' := by
  constructor
  · intro heq
    rw [← hf.ofRaw_raw, heq, hf'.ofRaw_raw]
  · rintro rfl
    rfl

/-- The parts of a handle stand side by side in its word. -/
theorem Fits.raw_eq_or (hf : h.Fits) : h.raw = h.shard <<< 28 ||| h.position := by
  rw [← Nat.shiftLeft_add_eq_or_of_lt (show h.position < 2 ^ 28 from hf.position_lt),
    Nat.shiftLeft_eq]
  rfl

end Symbol

/-! ## One shard -/

namespace InternShard

variable {shard : InternShard}

/-- The map of a shard and its strings lead to and fro. -/
def Agrees (shard : InternShard) : Prop :=
  ∀ (s : String) (position : Nat),
    shard.map[s]? = some position ↔ shard.strings[position]? = some s

theorem agrees_empty : Agrees {} := by simp [Agrees]

theorem Agrees.mem_iff (h : shard.Agrees) (s : String) :
    s ∈ shard.strings ↔ ∃ position, shard.map[s]? = some position := by
  rw [Array.mem_iff_getElem?]
  exact exists_congr fun position => (h s position).symm

/-- A string stands at one position. -/
theorem Agrees.nodup (h : shard.Agrees) : shard.strings.toList.Nodup := by
  refine List.nodup_iff_injective_getElem.mpr fun i j hij => Fin.ext ?_
  -- the map leads from a string back to its only position
  have hposition (k : Fin shard.strings.toList.length) :
      shard.map[shard.strings.toList[k.val]]? = some k.val := by
    rw [h, ← Array.getElem?_toList]
    exact List.getElem?_eq_getElem k.isLt
  have hsame := hposition i
  rw [show shard.strings.toList[i.val] = shard.strings.toList[j.val] from hij, hposition j] at hsame
  exact (Option.some.inj hsame).symm

/-- A new string goes into the map and behind the other strings at once. -/
theorem Agrees.push (h : shard.Agrees) {s : String} (hnew : shard.map[s]? = none) :
    (shard.push s).Agrees := by
  intro u position
  show (shard.map.insert s shard.strings.size)[u]? = some position ↔
    (shard.strings.push s)[position]? = some u
  rw [Std.HashMap.getElem?_insert, Array.getElem?_push]
  by_cases hu : s = u
  · subst hu
    -- what the map did not find stands nowhere among the strings
    have hother : shard.strings[position]? ≠ some s := fun hs => by
      rw [(h s position).mpr hs] at hnew
      cases hnew
    rw [if_pos (beq_self_eq_true s), Option.some.injEq]
    split
    · next hposition => exact iff_of_true hposition.symm rfl
    · next hposition => exact iff_of_false (Ne.symm hposition) hother
  · rw [if_neg (by simpa using hu), h u position]
    split
    · next hposition =>
      rw [hposition, Array.getElem?_eq_none le_rfl]
      simp [hu]
    · rfl

end InternShard

namespace SymbolTable

variable {t t' t'' : SymbolTable} {s s' : String} {h h' : Symbol} {held : Finset String}

/-! ## What a table holds -/

/-- A table holds certain strings: each in its own shard, where the map and the strings agree, and
the count is how many they are. -/
structure Holds (t : SymbolTable) (held : Finset String) : Prop where
  agrees : ∀ i, (t.shards.get i).Agrees
  mem : ∀ i s, s ∈ (t.shards.get i).strings ↔ s ∈ held ∧ Symbol.shardOf s = i
  totalCount_eq : t.totalCount = held.card

theorem Holds.nodup (ht : t.Holds held) (i : Fin 16) : (t.shards.get i).strings.toList.Nodup :=
  (ht.agrees i).nodup

/-- A shard holds as many strings as there are that select it. -/
theorem Holds.size_shard (ht : t.Holds held) (i : Fin 16) :
    (t.shards.get i).strings.size = (held.filter fun s => Symbol.shardOf s = i).card := by
  have hmem : (t.shards.get i).strings.toList.toFinset =
      held.filter fun s => Symbol.shardOf s = i := by
    ext s
    rw [List.mem_toFinset, Array.mem_toList_iff, ht.mem, Finset.mem_filter]
  rw [← hmem, List.toFinset_card_of_nodup (ht.nodup i), Array.length_toList]

/-- The map finds nothing exactly for a string that is not held. -/
theorem Holds.map_eq_none (ht : t.Holds held) :
    (t.shards.get (Symbol.shardOf s)).map[s]? = none ↔ s ∉ held := by
  have hmem := ht.mem (Symbol.shardOf s) s
  rw [(ht.agrees _).mem_iff, eq_self_iff_true, and_true] at hmem
  rw [← hmem, Option.eq_none_iff_forall_ne_some, not_exists]

/-- The count is the number of strings in all shards together. -/
theorem Holds.totalCount_eq_sum (ht : t.Holds held) :
    t.totalCount = ∑ i : Fin 16, (t.shards.get i).strings.size := by
  rw [ht.totalCount_eq, Finset.card_eq_sum_card_fiberwise (f := Symbol.shardOf) (t := Finset.univ)
    fun s _ => Finset.mem_coe.mpr (Finset.mem_univ _)]
  exact Finset.sum_congr rfl fun i _ => (ht.size_shard i).symm

/-! ## Growth -/

/-- Every shard goes on from where it was. -/
instance : LE SymbolTable :=
  ⟨fun t t' => ∀ i, (t.shards.get i).strings.toList <+: (t'.shards.get i).strings.toList⟩

theorem le_refl (t : SymbolTable) : t ≤ t := fun _ => List.prefix_rfl

theorem le_trans (h : t ≤ t') (h' : t' ≤ t'') : t ≤ t'' := fun i => (h i).trans (h' i)

/-- A handle stands for a string: it is the place where the string is held. -/
structure Names (t : SymbolTable) (h : Symbol) (s : String) : Prop where
  shard_eq : h.shard = (Symbol.shardOf s).val
  held : (t.shards.get (Symbol.shardOf s)).strings.toList[h.position]? = some s

/-- What a handle stands for is never changed. -/
theorem Names.of_le (hn : t.Names h s) (hle : t ≤ t') : t'.Names h s where
  shard_eq := hn.shard_eq
  held := by
    obtain ⟨more, hmore⟩ := hle (Symbol.shardOf s)
    rw [← hmore, List.getElem?_append_left (List.getElem?_eq_some_iff.mp hn.held).1]
    exact hn.held

theorem Names.lookup? (hn : t.Names h s) : t.lookup? h = some s := by
  have hlt : h.shard < 16 := by
    rw [hn.shard_eq]
    exact Symbol.shardOf_lt s
  have hshard : t.shards[h.shard]? = some (t.shards.get (Symbol.shardOf s)) := by
    rw [Vector.getElem?_eq_getElem hlt]
    simp only [hn.shard_eq]
    rfl
  have hheld := hn.held
  rw [Array.getElem?_toList] at hheld
  show (t.shards[h.shard]?.bind fun shard => shard.strings[h.position]?) = some s
  rw [hshard]
  exact hheld

/-- Handles are equal exactly when their strings are. -/
theorem Names.eq_iff (ht : t.Holds held) (hn : t.Names h s) (hn' : t.Names h' s') :
    h = h' ↔ s = s' := by
  constructor
  · rintro rfl
    exact Option.some.inj (hn.lookup?.symm.trans hn'.lookup?)
  · rintro rfl
    -- a string stands in one shard, and there at one position
    have hposition : h.position = h'.position :=
      (List.getElem?_inj (List.getElem?_eq_some_iff.mp hn.held).1 (ht.nodup _)).mp
        (hn.held.trans hn'.held.symm)
    have hshard := hn.shard_eq.trans hn'.shard_eq.symm
    cases h
    cases h'
    simp_all

/-- A handle into a shard without too many strings fits a word. -/
theorem Names.fits (hn : t.Names h s)
    (hroom : (t.shards.get (Symbol.shardOf s)).strings.size ≤ Symbol.positionCount) : h.Fits where
  shard_lt := by
    rw [hn.shard_eq]
    exact Symbol.shardOf_lt s
  position_lt := by
    have hlt := (List.getElem?_eq_some_iff.mp hn.held).1
    rw [Array.length_toList] at hlt
    omega

/-! ## Adding a string -/

theorem get_set (shards : Vector InternShard 16) (i j : Fin 16) (shard : InternShard) :
    (shards.set i.val shard i.isLt).get j = if i = j then shard else shards.get j := by
  show (shards.set i.val shard i.isLt)[j.val] = if i = j then shard else shards[j.val]
  rw [Vector.getElem_set]
  simp only [Fin.ext_iff]

theorem get_add (t : SymbolTable) (s : String) (j : Fin 16) : (t.add s).shards.get j =
    if Symbol.shardOf s = j then (t.shards.get j).push s else t.shards.get j := by
  show (t.shards.set (Symbol.shardOf s).val _ (Symbol.shardOf s).isLt).get j = _
  rw [get_set]
  split
  · next hj => rw [hj]
  · rfl

theorem strings_get_add (t : SymbolTable) (s : String) (j : Fin 16) :
    ((t.add s).shards.get j).strings = if Symbol.shardOf s = j then (t.shards.get j).strings.push s
      else (t.shards.get j).strings := by
  rw [get_add]
  split <;> rfl

theorem le_add (t : SymbolTable) (s : String) : t ≤ t.add s := by
  intro j
  rw [strings_get_add]
  split
  · rw [Array.toList_push]
    exact List.prefix_append _ _
  · exact List.prefix_rfl

/-- A string that is added is one more that the table holds. -/
theorem Holds.add (ht : t.Holds held) (hnew : s ∉ held) : (t.add s).Holds (insert s held) where
  agrees j := by
    rw [get_add]
    split
    · next hj => exact (ht.agrees j).push (hj ▸ ht.map_eq_none.mpr hnew)
    · exact ht.agrees j
  mem j u := by
    rw [strings_get_add, Finset.mem_insert]
    split
    · next hj =>
      rw [Array.mem_push, ht.mem]
      constructor
      · rintro (⟨hmem, hu⟩ | rfl)
        · exact ⟨.inr hmem, hu⟩
        · exact ⟨.inl rfl, hj⟩
      · rintro ⟨rfl | hmem, hu⟩
        · exact .inr rfl
        · exact .inl ⟨hmem, hu⟩
    · next hj =>
      rw [ht.mem]
      constructor
      · rintro ⟨hmem, hu⟩
        exact ⟨.inr hmem, hu⟩
      · rintro ⟨rfl | hmem, hu⟩
        · exact absurd hu hj
        · exact ⟨hmem, hu⟩
  totalCount_eq := by
    rw [Finset.card_insert_of_notMem hnew, ← ht.totalCount_eq]
    rfl

/-! ## One request -/

/-- A request finds the string in the map of its shard, or adds it. -/
theorem intern_cases (t : SymbolTable) (s : String) :
    let shard := t.shards.get (Symbol.shardOf s)
    (∃ position, shard.map[s]? = some position ∧
      t.intern s = (⟨(Symbol.shardOf s).val, position⟩, t)) ∨
    (shard.map[s]? = none ∧
      t.intern s = (⟨(Symbol.shardOf s).val, shard.strings.size⟩, t.add s)) := by
  intro shard
  unfold intern
  dsimp only
  cases hfound : (t.shards.get (Symbol.shardOf s)).map[s]? with
  | none => exact .inr ⟨rfl, rfl⟩
  | some position => exact .inl ⟨position, rfl, rfl⟩

/-- What a request does to a table: the string is held from then on, at the place of its handle. -/
theorem Holds.intern (ht : t.Holds held) (s : String) :
    (t.intern s).2.Holds (insert s held) ∧ t ≤ (t.intern s).2 ∧
      (t.intern s).2.Names (t.intern s).1 s := by
  rcases t.intern_cases s with ⟨position, hfound, heq⟩ | ⟨hnew, heq⟩
  · have hposition := (ht.agrees _ s position).mp hfound
    have hmem : s ∈ held :=
      ((ht.mem _ _).mp (Array.mem_of_getElem? hposition)).1
    rw [heq, Finset.insert_eq_of_mem hmem]
    refine ⟨ht, t.le_refl, rfl, ?_⟩
    rw [Array.getElem?_toList]
    exact hposition
  · -- the handle is taken before the string is pushed, when its position is still free
    have hnew : s ∉ held := ht.map_eq_none.mp hnew
    rw [heq]
    refine ⟨ht.add hnew, t.le_add s, rfl, ?_⟩
    rw [strings_get_add, if_pos rfl, Array.toList_push, List.getElem?_append_right (by simp)]
    simp

/-! ## Requests one after the other -/

theorem Holds.foldl (ht : t.Holds held) (ss : List String) :
    (ss.foldl (fun t s => (t.intern s).2) t).Holds (held ∪ ss.toFinset) := by
  induction ss generalizing t held with
  | nil => simpa using ht
  | cons s ss ih =>
    rw [List.foldl_cons, List.toFinset_cons, Finset.union_insert, ← Finset.insert_union]
    exact ih (ht.intern s).1

theorem agrees_withEmpty : InternShard.withEmpty.Agrees :=
  InternShard.agrees_empty.push (by simp)

theorem get_bare (i : Fin 16) : bare.shards.get i = if 0 = i then .withEmpty else {} := by
  refine (get_set _ 0 i .withEmpty).trans ?_
  split
  · rfl
  · show (Vector.replicate 16 ({} : InternShard))[i.val] = {}
    simp

theorem holds_bare : bare.Holds {""} where
  agrees i := by
    rw [get_bare]
    split
    · exact agrees_withEmpty
    · exact InternShard.agrees_empty
  mem i s := by
    have hempty : Symbol.shardOf "" = 0 := by decide
    rw [get_bare, Finset.mem_singleton]
    split
    · next hi =>
      subst hi
      show s ∈ #[""] ↔ _
      rw [Array.mem_singleton]
      constructor
      · rintro rfl
        exact ⟨rfl, hempty⟩
      · exact And.left
    · next hi =>
      refine iff_of_false (by simp) ?_
      rintro ⟨rfl, hshard⟩
      exact hi (hempty.symm.trans hshard)
  totalCount_eq := rfl

theorem holds_new : new.Holds ("" :: builtins).toFinset := by
  rw [List.toFinset_cons, ← Finset.singleton_union]
  exact holds_bare.foldl builtins

/-- A request is granted when there is a position for every string of its shard. -/
theorem Holds.tryIntern_eq (ht : t.Holds held)
    (hroom : ((insert s held).filter fun u => Symbol.shardOf u = Symbol.shardOf s).card ≤
      Symbol.positionCount) : t.tryIntern s = .ok (t.intern s) := by
  unfold tryIntern SymbolTable.intern
  dsimp only
  cases hfound : (t.shards.get (Symbol.shardOf s)).map[s]? with
  | some position => rfl
  | none =>
    have hnew : s ∉ held := ht.map_eq_none.mp hfound
    have hlt : (t.shards.get (Symbol.shardOf s)).strings.size < Symbol.positionCount := by
      rw [Finset.filter_insert, if_pos rfl, Finset.card_insert_of_notMem (by simp [hnew])] at hroom
      rw [ht.size_shard]
      omega
    exact if_pos hlt

/-- Requests one after the other: the handles that they are answered with, and the table that they
leave.  The first that is refused ends them. -/
def tryInternAll (t : SymbolTable) : List String → Except InternError (List Symbol × SymbolTable)
  | [] => .ok ([], t)
  | s :: ss => do
    let (handle, t) ← t.tryIntern s
    let (handles, t) ← t.tryInternAll ss
    return (handle :: handles, t)

theorem tryInternAll_cons_eq_ok {ss : List String} {handles : List Symbol} :
    t.tryInternAll (s :: ss) = .ok (handles, t') ↔ ∃ handle next rest,
      t.tryIntern s = .ok (handle, next) ∧ next.tryInternAll ss = .ok (rest, t') ∧
        handles = handle :: rest := by
  have hrun : t.tryInternAll (s :: ss) = t.tryIntern s >>= fun r =>
      r.2.tryInternAll ss >>= fun later => pure (r.1 :: later.1, later.2) := rfl
  rw [hrun]
  cases t.tryIntern s with
  | error e => exact iff_of_false nofun nofun
  | ok r =>
    show (r.2.tryInternAll ss >>= fun later => pure (r.1 :: later.1, later.2)) = _ ↔ _
    constructor
    · intro h
      cases hlater : r.2.tryInternAll ss with
      | error e =>
        rw [hlater] at h
        cases h
      | ok later =>
        rw [hlater] at h
        obtain ⟨rfl, rfl⟩ := Prod.mk.inj (Except.ok.inj h)
        exact ⟨r.1, r.2, later.1, rfl, hlater, rfl⟩
    · rintro ⟨handle, next, rest, h, hlater, rfl⟩
      obtain rfl := Except.ok.inj h
      rw [hlater]
      rfl

theorem tryInternAll_append {ss ss' : List String} {handles handles' : List Symbol}
    (h : t.tryInternAll ss = .ok (handles, t')) (h' : t'.tryInternAll ss' = .ok (handles', t'')) :
    t.tryInternAll (ss ++ ss') = .ok (handles ++ handles', t'') := by
  induction ss generalizing t handles with
  | nil =>
    obtain ⟨rfl, rfl⟩ := Prod.mk.inj (Except.ok.inj h)
    exact h'
  | cons s ss ih =>
    obtain ⟨handle, next, rest, hgranted, hrest, rfl⟩ := tryInternAll_cons_eq_ok.mp h
    exact tryInternAll_cons_eq_ok.mpr ⟨handle, next, rest ++ handles', hgranted, ih hrest, rfl⟩

/-- Requests for strings that there are positions for are all granted, and at the end every handle
stands for the string of its request. -/
theorem Holds.tryInternAll (ht : t.Holds held) (ss : List String)
    (hroom : ∀ i, ((held ∪ ss.toFinset).filter fun s => Symbol.shardOf s = i).card ≤
      Symbol.positionCount) :
    ∃ handles later, t.tryInternAll ss = .ok (handles, later) ∧ t ≤ later ∧
      later.Holds (held ∪ ss.toFinset) ∧ List.Forall₂ later.Names handles ss := by
  induction ss generalizing t held with
  | nil => exact ⟨[], t, rfl, t.le_refl, by simpa using ht, .nil⟩
  | cons s ss ih =>
    rw [List.toFinset_cons, Finset.union_insert, ← Finset.insert_union] at hroom ⊢
    obtain ⟨hheld, hle, hnames⟩ := ht.intern s
    obtain ⟨handles, later, hrun, hle', hheld', hnames'⟩ := ih hheld hroom
    have hgranted : t.tryIntern s = .ok (t.intern s) := ht.tryIntern_eq <|
      (Finset.card_le_card (Finset.filter_subset_filter _ Finset.subset_union_left)).trans (hroom _)
    exact ⟨(t.intern s).1 :: handles, later,
      tryInternAll_cons_eq_ok.mpr ⟨_, _, _, hgranted, hrun, rfl⟩, le_trans hle hle', hheld',
      .cons (hnames.of_le hle') hnames'⟩

/-- As long as there are positions for the strings of each shard, all requests to a new table are
granted.  After each of them the words of the handles so far are read back as the strings they were
given for, and the size of the table is the number of distinct strings, with the empty one and the
builtins.  Two words are equal exactly when their strings are, and each has the shard in its upper
four bits and the position in the lower twenty-eight. -/
theorem tryInternAll_roundTrip (calls : List String)
    (hroom : ∀ shard, (("" :: builtins ++ calls).toFinset.filter fun s =>
      Symbol.shardOf s = shard).card ≤ 2 ^ 28) :
    ∃ handles : List Symbol, handles.length = calls.length ∧
      (∀ k ≤ calls.length, ∃ table, new.tryInternAll (calls.take k) = .ok (handles.take k, table) ∧
        (handles.take k).map (fun h => table.lookup? (.ofRaw h.raw)) = (calls.take k).map some ∧
        table.size = ("" :: builtins ++ calls.take k).toFinset.card) ∧
      (∀ p ∈ handles.zip calls, ∀ q ∈ handles.zip calls, p.1.raw = q.1.raw ↔ p.2 = q.2) ∧
      ∀ h ∈ handles, h.raw < 2 ^ 32 ∧ h.raw = h.shard <<< 28 ||| h.position := by
  rw [List.toFinset_append] at hroom
  obtain ⟨handles, final, hrun, -, hheld, hnames⟩ := holds_new.tryInternAll calls hroom
  have hfits : ∀ {h : Symbol} {s : String}, final.Names h s → h.Fits := fun hn =>
    hn.fits (hheld.size_shard _ ▸ hroom _)
  refine ⟨handles, hnames.length_eq, fun k hk => ?_, fun p hp q hq => ?_, fun h hh => ?_⟩
  · -- the requests up to here, and those that follow
    have hroom' : ∀ i, ((("" :: builtins).toFinset ∪ (calls.take k).toFinset).filter fun s =>
        Symbol.shardOf s = i).card ≤ Symbol.positionCount := by
      intro i
      have hsub : (calls.take k).toFinset ⊆ calls.toFinset := by
        intro s hs
        exact List.mem_toFinset.mpr (List.mem_of_mem_take (List.mem_toFinset.mp hs))
      exact (Finset.card_le_card (Finset.filter_subset_filter _
        (Finset.union_subset_union_right hsub))).trans (hroom i)
    obtain ⟨first, table, hrun₁, -, hheld₁, hnames₁⟩ := holds_new.tryInternAll (calls.take k) hroom'
    obtain ⟨rest, later, hrun₂, hle₂, -, -⟩ := hheld₁.tryInternAll (calls.drop k) (by
      rw [Finset.union_assoc, ← List.toFinset_append, List.take_append_drop]
      exact hroom)
    have hall := tryInternAll_append hrun₁ hrun₂
    rw [List.take_append_drop, hrun] at hall
    obtain ⟨rfl, rfl⟩ := Prod.mk.inj (Except.ok.inj hall)
    have hfirst : (first ++ rest).take k = first := by
      apply List.take_left'
      rw [hnames₁.length_eq, List.length_take]
      omega
    rw [hfirst]
    refine ⟨table, hrun₁, ?_, ?_⟩
    · rw [← List.forall₂_eq_eq_eq, List.forall₂_map_left_iff, List.forall₂_map_right_iff]
      refine hnames₁.imp fun h s hn => ?_
      rw [(hfits (hn.of_le hle₂)).ofRaw_raw, hn.lookup?]
    · rw [size, hheld₁.totalCount_eq, ← List.toFinset_append]
  · have hp := (List.forall₂_iff_zip.mp hnames).2 hp
    have hq := (List.forall₂_iff_zip.mp hnames).2 hq
    rw [(hfits hp).raw_inj (hfits hq)]
    exact hp.eq_iff hheld hq
  · obtain ⟨i, hi, rfl⟩ := List.getElem_of_mem hh
    have hn := hnames.get hi (hnames.length_eq ▸ hi)
    exact ⟨(hfits hn).raw_lt, (hfits hn).raw_eq_or⟩

/-- Two strings that begin with the same eight bytes are in one shard, under handles of their own. -/
theorem tryInternAll_roundTrip_prefix :
    let calls := ["interval.start", "interval.stop", "interval.start"]
    (∀ shard, (("" :: builtins ++ calls).toFinset.filter fun s =>
      Symbol.shardOf s = shard).card ≤ 2 ^ 28) ∧
    Symbol.shardOf "interval.start" = Symbol.shardOf "interval.stop" ∧
    ∃ (a b c : Symbol) (table : SymbolTable), new.tryInternAll calls = .ok ([a, b, c], table) ∧
      a.raw ≠ b.raw ∧ a.raw = c.raw ∧ table.lookup? (.ofRaw a.raw) = some "interval.start" ∧
      table.lookup? (.ofRaw b.raw) = some "interval.stop" ∧ table.size = 30 := by
  intro calls
  have hroom : ∀ shard, (("" :: builtins ++ calls).toFinset.filter fun s =>
      Symbol.shardOf s = shard).card ≤ 2 ^ 28 := by
    intro shard
    apply (Finset.card_filter_le _ _).trans
    apply (List.toFinset_card_le _).trans
    decide
  obtain ⟨handles, hlen, hruns, hwords, -⟩ := tryInternAll_roundTrip calls hroom
  obtain ⟨table, hrun, hlookup, hsize⟩ := hruns 3 le_rfl
  obtain ⟨a, b, c, rfl⟩ := List.length_eq_three.mp hlen
  have hab := hwords (a, "interval.start") (by simp [calls]) (b, "interval.stop") (by simp [calls])
  have hac := hwords (a, "interval.start") (by simp [calls]) (c, "interval.start") (by simp [calls])
  simp only [calls, List.take_succ_cons, List.take_zero, List.map_cons, List.map_nil,
    List.cons.injEq, and_true] at hlookup
  refine ⟨hroom, by decide, a, b, c, table, hrun, ?_, hac.mpr rfl, hlookup.1, hlookup.2.1, ?_⟩
  · intro heq
    exact absurd (hab.mp heq) (show "interval.start" ≠ "interval.stop" by decide)
  · rw [hsize]
    decide

end SymbolTable

end ConstraintTyping
