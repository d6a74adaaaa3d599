/-!
# Ascending lists

Sets that an answer shows are lists in ascending order without repetitions
(`pairwise_ascending`), and tables are lists in ascending order of their keys
(`pairwise_latest`), which hold the last item with each key (`mem_latest_iff`).
-/

namespace Slicing

/-- The members of a list in ascending order of their rank, each once. -/
def ascending {α : Type} [BEq α] (rank : α → Nat) (items : List α) : List α :=
  items.eraseDups.mergeSort fun a b => rank a ≤ rank b

@[simp]
theorem mem_ascending {α : Type} [BEq α] [LawfulBEq α] {rank : α → Nat} {items : List α} {a : α} :
    a ∈ ascending rank items ↔ a ∈ items := by
  rw [ascending, List.mem_mergeSort, List.mem_eraseDups]

/-- The last items with their ranks, in the order of the list. -/
def lastByRank {α : Type} (rank : α → Nat) (items : List α) : List α :=
  items.foldr (fun item later => if later.any (rank · == rank item) then later else item :: later) []

/-- A table of items by their rank: in ascending order, and of several items with one
    rank only the last. -/
def latest {α : Type} (rank : α → Nat) (items : List α) : List α :=
  (lastByRank rank items).mergeSort fun a b => rank a ≤ rank b

/-! ## Order -/

section Order

variable {α : Type} {rank : α → Nat} {items : List α}

theorem nodup_eraseDups [BEq α] [LawfulBEq α] (items : List α) : items.eraseDups.Nodup := by
  match items with
  | [] => simp
  | a :: rest =>
    rw [List.eraseDups_cons, List.nodup_cons]
    refine ⟨fun hmem => ?_, nodup_eraseDups _⟩
    simp [List.mem_eraseDups, List.mem_filter] at hmem
termination_by items.length
decreasing_by exact Nat.lt_succ_of_le (List.length_filter_le _ _)

/-- What is in ascending order is there once. -/
theorem nodup_ascending [BEq α] [LawfulBEq α] (rank : α → Nat) (items : List α) :
    (ascending rank items).Nodup :=
  (List.mergeSort_perm _ _).nodup_iff.2 (nodup_eraseDups items)

/-- Sorting by a rank gives an ascending list. -/
theorem pairwise_mergeSort_rank (rank : α → Nat) (items : List α) :
    (items.mergeSort fun a b => rank a ≤ rank b).Pairwise (rank · ≤ rank ·) := by
  refine (List.pairwise_mergeSort ?_ ?_ items).imp fun h => of_decide_eq_true h
  · intro a b c hab hbc
    exact decide_eq_true (Nat.le_trans (of_decide_eq_true hab) (of_decide_eq_true hbc))
  · intro a b
    simpa using Nat.le_total (rank a) (rank b)

/-- What is in ascending order without repetitions is in strictly ascending order, if
    different things have different ranks. -/
theorem pairwise_ascending [BEq α] [LawfulBEq α] (hrank : ∀ a b, rank a = rank b → a = b) :
    (ascending rank items).Pairwise (rank · < rank ·) := by
  have hle := pairwise_mergeSort_rank rank items.eraseDups
  have hne := nodup_ascending rank items
  refine (hle.and hne).imp fun {a b} h => ?_
  exact Nat.lt_of_le_of_ne h.1 fun heq => h.2 (hrank a b heq)

/-- The order in which things are found does not matter. -/
theorem ascending_congr [BEq α] [LawfulBEq α] {items' : List α}
    (hrank : ∀ a b, rank a = rank b → a = b) (h : ∀ a, a ∈ items ↔ a ∈ items') :
    ascending rank items = ascending rank items' := by
  have hperm : (ascending rank items).Perm (ascending rank items') := by
    rw [List.perm_ext_iff_of_nodup (nodup_ascending rank items) (nodup_ascending rank items')]
    intro a
    rw [mem_ascending, mem_ascending, h]
  refine hperm.eq_of_pairwise (fun a b _ _ hab hba => ?_) (pairwise_mergeSort_rank rank _)
    (pairwise_mergeSort_rank rank _)
  exact hrank a b (Nat.le_antisymm hab hba)

end Order

/-! ## Tables -/

section Tables

variable {α : Type} {rank : α → Nat} {items : List α} {a : α}

/-- An item in front is kept if none behind it has its rank. -/
theorem lastByRank_cons (item : α) (items : List α) :
    lastByRank rank (item :: items) =
      if (lastByRank rank items).any (rank · == rank item) then lastByRank rank items
      else item :: lastByRank rank items :=
  rfl

/-- Every rank of the list is kept. -/
theorem exists_mem_lastByRank_iff {r : Nat} :
    (∃ b ∈ lastByRank rank items, rank b = r) ↔ ∃ b ∈ items, rank b = r := by
  induction items with
  | nil => simp [lastByRank]
  | cons item items ih =>
    rw [lastByRank_cons]
    split
    · rename_i hlater
      rw [ih]
      obtain ⟨c, hc, hrank⟩ := List.any_eq_true.1 hlater
      constructor
      · rintro ⟨b, hb, hr⟩
        exact ⟨b, List.mem_cons_of_mem _ hb, hr⟩
      · rintro ⟨b, hb, hr⟩
        rcases List.mem_cons.1 hb with rfl | hb
        · exact ih.1 ⟨c, hc, (by simpa using hrank : rank c = rank b).trans hr⟩
        · exact ⟨b, hb, hr⟩
    · simp only [List.mem_cons, exists_eq_or_imp, ih]

/-- What is kept is the last item with its rank. -/
theorem mem_lastByRank_iff : a ∈ lastByRank rank items ↔
    ∃ before after, items = before ++ a :: after ∧ ∀ b ∈ after, rank b ≠ rank a := by
  induction items with
  | nil => simp [lastByRank]
  | cons item items ih =>
    have hlater : (lastByRank rank items).any (rank · == rank item) = true ↔
        ∃ b ∈ items, rank b = rank item := by
      rw [← exists_mem_lastByRank_iff, List.any_eq_true]
      simp
    -- an item in front is the last one of its rank, or else the table is that of the rest
    have hcons : (∃ before after, item :: items = before ++ a :: after ∧
          ∀ b ∈ after, rank b ≠ rank a) ↔
        (item = a ∧ ∀ b ∈ items, rank b ≠ rank a) ∨
          ∃ before after, items = before ++ a :: after ∧ ∀ b ∈ after, rank b ≠ rank a := by
      constructor
      · rintro ⟨_ | ⟨first, before⟩, after, heq, hafter⟩
        · cases heq
          exact .inl ⟨rfl, hafter⟩
        · cases heq
          exact .inr ⟨before, after, rfl, hafter⟩
      · rintro (⟨rfl, hafter⟩ | ⟨before, after, rfl, hafter⟩)
        · exact ⟨[], items, rfl, hafter⟩
        · exact ⟨item :: before, after, rfl, hafter⟩
    rw [lastByRank_cons, hcons]
    split
    · rename_i hany
      obtain ⟨b, hb, hrank⟩ := hlater.1 hany
      rw [ih]
      refine ⟨.inr, fun h => h.resolve_left ?_⟩
      rintro ⟨rfl, hafter⟩
      exact hafter b hb hrank
    · rename_i hany
      rw [List.mem_cons, ih]
      refine or_congr_left ⟨?_, fun h => h.1.symm⟩
      rintro rfl
      exact ⟨rfl, fun b hb hrank => hany (hlater.2 ⟨b, hb, hrank⟩)⟩

/-- A table holds the last item with each rank. -/
theorem mem_latest_iff : a ∈ latest rank items ↔
    ∃ before after, items = before ++ a :: after ∧ ∀ b ∈ after, rank b ≠ rank a := by
  rw [latest, List.mem_mergeSort, mem_lastByRank_iff]

/-- No two items that are kept have one rank. -/
theorem pairwise_lastByRank (rank : α → Nat) (items : List α) :
    (lastByRank rank items).Pairwise (rank · ≠ rank ·) := by
  induction items with
  | nil => exact List.Pairwise.nil
  | cons item items ih =>
    rw [lastByRank_cons]
    split
    · exact ih
    · rename_i hany
      refine List.Pairwise.cons (fun b hb heq => hany ?_) ih
      exact List.any_eq_true.2 ⟨b, hb, by simpa using heq.symm⟩

/-- A table has one item with each rank. -/
theorem pairwise_latest (rank : α → Nat) (items : List α) :
    (latest rank items).Pairwise (rank · < rank ·) := by
  have hne : (latest rank items).Pairwise (rank · ≠ rank ·) :=
    ((List.mergeSort_perm _ _).pairwise_iff fun h => h.symm).2 (pairwise_lastByRank rank items)
  refine ((pairwise_mergeSort_rank rank _).and hne).imp fun h => ?_
  exact Nat.lt_of_le_of_ne h.1 h.2

end Tables

end Slicing
