import Mathlib.Data.List.Forall2
import Mathlib.Data.List.Nodup
import Mathlib.Data.List.Pairwise
import Slicing.Ascending

/-!
# Lists and results

Facts about lists and computations that may fail which several of the proofs use: when a
computation in steps succeeds, and what is found in a list whose members are told apart by a
key.
-/

namespace Slicing

/-! ## Results -/

/-- A computation in two steps succeeds if both do. -/
theorem bind_eq_ok_iff {α β ε : Type} {x : Except ε α} {f : α → Except ε β} {b : β} :
    x >>= f = .ok b ↔ ∃ a, x = .ok a ∧ f a = .ok b := by
  cases x with
  | error e => exact ⟨nofun, nofun⟩
  | ok a =>
    refine ⟨fun h => ⟨a, rfl, h⟩, ?_⟩
    rintro ⟨_, ⟨⟩, h⟩
    exact h

theorem mapError_eq_ok_iff {α ε ε' : Type} {x : Except ε α} {f : ε → ε'} {a : α} :
    x.mapError f = .ok a ↔ x = .ok a := by
  cases x with
  | error e => exact ⟨nofun, nofun⟩
  | ok b => simp [Except.mapError]

theorem toOption_eq_some_iff {α ε : Type} {x : Except ε α} {a : α} :
    x.toOption = some a ↔ x = .ok a := by
  cases x with
  | error e => exact ⟨nofun, nofun⟩
  | ok b => simp [Except.toOption]

/-- A list of computations succeeds if each of them does. -/
theorem mapM_eq_ok_iff {α β ε : Type} {f : α → Except ε β} {as : List α} {bs : List β} :
    as.mapM f = .ok bs ↔ List.Forall₂ (fun a b => f a = .ok b) as bs := by
  induction as generalizing bs with
  | nil =>
    rw [List.mapM_nil, List.forall₂_nil_left_iff]
    exact ⟨fun h => (Except.ok.inj h).symm, fun h => congrArg Except.ok h.symm⟩
  | cons a as ih =>
    rw [List.mapM_cons, List.forall₂_cons_left_iff]
    simp only [bind_eq_ok_iff, ih]
    constructor
    · rintro ⟨b, hb, bs', hbs', ⟨⟩⟩
      exact ⟨b, bs', hb, hbs', rfl⟩
    · rintro ⟨b, bs', hb, hbs', rfl⟩
      exact ⟨b, hb, bs', hbs', rfl⟩

/-- A list of computations succeeds if none of them fails. -/
theorem exists_mapM_eq_ok {α β ε : Type} {f : α → Except ε β} {as : List α}
    (h : ∀ a ∈ as, ∃ b, f a = .ok b) : ∃ bs, as.mapM f = .ok bs := by
  simp only [mapM_eq_ok_iff]
  induction as with
  | nil => exact ⟨[], .nil⟩
  | cons a as ih =>
    obtain ⟨b, hb⟩ := h a List.mem_cons_self
    obtain ⟨bs, hbs⟩ := ih fun a ha => h a (List.mem_cons_of_mem _ ha)
    exact ⟨b :: bs, .cons hb hbs⟩

/-! ## Lists that correspond -/

/-- What is on the right of related lists is related to something on the left. -/
theorem forall₂_mem_right {α β : Type} {R : α → β → Prop} {as : List α} {bs : List β} {b : β}
    (h : List.Forall₂ R as bs) (hb : b ∈ bs) : ∃ a ∈ as, R a b := by
  induction h with
  | nil => simp at hb
  | cons h₁ _ ih =>
    rcases List.mem_cons.1 hb with rfl | hb
    · exact ⟨_, List.mem_cons_self, h₁⟩
    · obtain ⟨a, ha, hab⟩ := ih hb
      exact ⟨a, List.mem_cons_of_mem _ ha, hab⟩

theorem forall₂_getElem? {α β : Type} {R : α → β → Prop} {as : List α} {bs : List β} {i : Nat} {a : α}
    (h : List.Forall₂ R as bs) (ha : as[i]? = some a) : ∃ b, bs[i]? = some b ∧ R a b := by
  induction h generalizing i with
  | nil => simp at ha
  | cons hab _ ih =>
    cases i with
    | zero => exact ⟨_, rfl, Option.some.inj ha ▸ hab⟩
    | succ i => exact ih ha

/-- Two lists that correspond to a third one correspond to each other. -/
theorem forall₂_swap {α β γ : Type} {R : α → β → Prop} {S : α → γ → Prop} {T : β → γ → Prop}
    {as : List α} {bs : List β} {cs : List γ} (hRS : ∀ a b c, R a b → S a c → T b c)
    (hR : List.Forall₂ R as bs) (hS : List.Forall₂ S as cs) : List.Forall₂ T bs cs := by
  induction hR generalizing cs with
  | nil =>
    cases hS
    exact .nil
  | cons hab _ ih =>
    cases hS with
    | cons hac hS => exact .cons (hRS _ _ _ hab hac) (ih hS)

/-- Lists with the same keys correspond. -/
theorem forall₂_of_map_eq {α β γ : Type} {R : α → β → Prop} {key : α → γ} {key' : β → γ} {as : List α}
    {bs : List β} (heq : as.map key = bs.map key') (hR : ∀ a ∈ as, ∀ b ∈ bs, key a = key' b → R a b) :
    List.Forall₂ R as bs := by
  have hkeys : List.Forall₂ (fun a b => key a = key' b) as bs := by
    rw [← List.forall₂_map_right_iff (R := fun a k => key a = k), ← heq, List.forall₂_map_right_iff]
    exact List.forall₂_same.2 fun a _ => rfl
  obtain ⟨hlength, hzip⟩ := List.forall₂_iff_zip.1 hkeys
  refine List.forall₂_iff_zip.2 ⟨hlength, fun {a b} hab => ?_⟩
  obtain ⟨ha, hb⟩ := List.of_mem_zip hab
  exact hR a ha b hb (hzip hab)

/-! ## Keys -/

/-- What is found by a key that tells the members of a list apart. -/
theorem find?_eq_some_iff_of_unique {α β : Type} [BEq β] [LawfulBEq β] {key : α → β} {items : List α}
    (hunique : ∀ a ∈ items, ∀ b ∈ items, key a = key b → a = b) {k : β} {a : α} :
    items.find? (fun a => key a == k) = some a ↔ a ∈ items ∧ key a = k := by
  constructor
  · intro hfind
    exact ⟨List.mem_of_find?_eq_some hfind, by simpa using List.find?_some hfind⟩
  · rintro ⟨ha, rfl⟩
    -- something with the key is found, and there is just one
    obtain ⟨b, hb⟩ := Option.isSome_iff_exists.1
      (List.find?_isSome (p := fun b => key b == key a).2 ⟨a, ha, beq_self_eq_true _⟩)
    have hkey : key b = key a := by simpa using List.find?_some hb
    rw [hb, hunique b (List.mem_of_find?_eq_some hb) a ha hkey]

/-- Nothing is erased where nothing is repeated. -/
theorem eraseDups_of_nodup {α : Type} [BEq α] [LawfulBEq α] {items : List α} (h : items.Nodup) :
    items.eraseDups = items := by
  induction items with
  | nil => rfl
  | cons a items ih =>
    obtain ⟨ha, hitems⟩ := List.nodup_cons.1 h
    have hothers : items.filter (fun b => !b == a) = items := by
      refine List.filter_eq_self.2 fun b hb => ?_
      rw [Bool.not_eq_true', beq_eq_false_iff_ne]
      exact ne_of_mem_of_not_mem hb ha
    rw [List.eraseDups_cons, hothers, ih hitems]

/-- The members of a table of what is computed from a list. -/
theorem mem_latest_map_iff {α β : Type} {rank : β → Nat} {f : α → β} {items : List α} {b : β} :
    b ∈ latest rank (items.map f) ↔ ∃ a ∈ latest (fun a => rank (f a)) items, f a = b := by
  constructor
  · intro h
    obtain ⟨before, after, hitems, hafter⟩ := mem_latest_iff.1 h
    obtain ⟨before', rest, rfl, rfl, hrest⟩ := List.map_eq_append_iff.1 hitems
    obtain ⟨a, after', rfl, rfl, rfl⟩ := List.map_eq_cons_iff.1 hrest
    refine ⟨a, mem_latest_iff.2 ⟨before', after', rfl, fun c hc => ?_⟩, rfl⟩
    exact hafter _ (List.mem_map_of_mem hc)
  · rintro ⟨a, ha, rfl⟩
    obtain ⟨before, after, rfl, hafter⟩ := mem_latest_iff.1 ha
    refine mem_latest_iff.2 ⟨before.map f, after.map f, by simp, fun c hc => ?_⟩
    obtain ⟨a', ha', rfl⟩ := List.mem_map.1 hc
    exact hafter a' ha'

/-- A table has an item with each rank that there is. -/
theorem exists_mem_latest {α : Type} (rank : α → Nat) {items : List α} {a : α} (ha : a ∈ items) :
    ∃ b ∈ latest rank items, rank b = rank a := by
  obtain ⟨b, hb, hrank⟩ := exists_mem_lastByRank_iff.2 ⟨a, ha, rfl⟩
  exact ⟨b, List.mem_mergeSort.2 hb, hrank⟩

/-- A table has no two items with one rank. -/
theorem eq_of_mem_latest {α : Type} {rank : α → Nat} {items : List α} {a b : α}
    (ha : a ∈ latest rank items) (hb : b ∈ latest rank items) (heq : rank a = rank b) : a = b := by
  by_contra hne
  have hranks := (pairwise_latest rank items).imp fun h => Nat.ne_of_lt h
  have : Std.Symm fun a b : α => rank a ≠ rank b := ⟨fun _ _ h => h.symm⟩
  exact hranks.forall ha hb hne heq

/-- A table of items with different ranks holds all of them. -/
theorem latest_perm {α : Type} {rank : α → Nat} {items : List α} (h : (items.map rank).Nodup) :
    (latest rank items).Perm items := by
  refine (List.mergeSort_perm _ _).trans (.of_eq ?_)
  induction items with
  | nil => rfl
  | cons item items ih =>
    rw [List.map_cons, List.nodup_cons] at h
    have hfresh : items.any (rank · == rank item) = false := by
      refine List.any_eq_false.2 fun a ha heq => h.1 ?_
      exact List.mem_map.2 ⟨a, ha, beq_iff_eq.1 heq⟩
    rw [lastByRank_cons, ih h.2, hfresh]
    rfl

/-- What is looked up is there, where no key is there twice. -/
theorem lookup_eq_some_iff_mem {α β : Type} [BEq α] [LawfulBEq α] {items : List (α × β)} {a : α}
    {b : β} (h : (items.map (·.1)).Nodup) : items.lookup a = some b ↔ (a, b) ∈ items := by
  constructor
  · intro hb
    obtain ⟨before, after, rfl, -⟩ := List.lookup_eq_some_iff.1 hb
    simp
  · intro hb
    obtain ⟨before, after, rfl⟩ := List.append_of_mem hb
    refine List.lookup_eq_some_iff.2 ⟨before, after, rfl, fun p hp => ?_⟩
    rw [List.map_append, List.nodup_append] at h
    simpa [bne_iff_ne] using (h.2.2 p.1 (List.mem_map_of_mem hp) a (by simp)).symm

/-- If lists have no item twice and none in common, an item tells which list it is in. -/
theorem eq_of_nodup_flatMap {α β : Type} {f : α → List β} {items : List α} (h : (items.flatMap f).Nodup)
    {x y : α} (hx : x ∈ items) (hy : y ∈ items) {b : β} (hbx : b ∈ f x) (hby : b ∈ f y) : x = y := by
  by_contra hne
  have : Std.Symm (Function.onFun List.Disjoint f) := ⟨fun _ _ hdisjoint _ hy hx => hdisjoint hx hy⟩
  exact (List.nodup_flatMap.1 h).2.forall hx hy hne hbx hby

end Slicing
