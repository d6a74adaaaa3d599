import Mathlib.Data.List.Induction
import Mathlib.Data.List.Nodup
import Mathlib.Data.List.Permutation
import Slicing.Proofs.Slice.Closure

/-!
# What a slicer remembers

A slicer is told, one after another, to make slices and chops, or to forget the answers that it
remembers (`Slicer.Command`). Which ones it remembers is said by what it was told alone: take the
queries since it was told to forget, leave out those without an answer, and of each query all but
the last time that it was asked (`Slicer.recent`). The first of these, as many as there is room
for, are the queries whose answers are remembered (`Slicer.performAll_recalls`).

A command changes this list as it changes the cache (`Slicer.Remembers.perform`): the query goes
to the front. That the cache was cut off before makes no difference, because the query can free
only one place by leaving its old one (`take_cons_filter_take`).
-/

namespace Slicing

/-! ## The first members of a list without repetitions -/

/-- Members may be filtered before or after repeated ones are dropped. -/
theorem eraseDups_filter {α : Type} [BEq α] [LawfulBEq α] (p : α → Bool) (items : List α) :
    (items.filter p).eraseDups = items.eraseDups.filter p := by
  match items with
  | [] => rfl
  | a :: rest =>
    have ih := eraseDups_filter p (rest.filter fun b => !b == a)
    rw [List.eraseDups_cons]
    cases hp : p a with
    | true =>
      rw [List.filter_cons_of_pos hp, List.filter_cons_of_pos hp, List.eraseDups_cons, ← ih,
        List.filter_comm]
    | false =>
      -- to leave out the other copies of an unwanted member changes nothing
      have hskip : (rest.filter fun b => !b == a).filter p = rest.filter p := by
        rw [List.filter_filter]
        refine List.filter_congr fun b _ => ?_
        cases hb : b == a with
        | true =>
          rw [eq_of_beq hb, hp]
          rfl
        | false => simp
      rw [List.filter_cons_of_neg (by simp [hp]), List.filter_cons_of_neg (by simp [hp]), ← ih, hskip]
termination_by items.length
decreasing_by exact Nat.lt_succ_of_le (List.length_filter_le _ _)

/-- A member that moves to the front leaves at most one place free. -/
theorem take_cons_filter_take {α : Type} [DecidableEq α] {items : List α} (hnodup : items.Nodup)
    (a : α) (n : Nat) :
    (a :: (items.take n).filter (· != a)).take n = (a :: items.filter (· != a)).take n := by
  cases n with
  | zero => rfl
  | succ n =>
    have hsplit : items.filter (· != a) =
        (items.take (n + 1)).filter (· != a) ++ (items.drop (n + 1)).filter (· != a) := by
      rw [← List.filter_append, List.take_append_drop]
    rw [List.take_succ_cons, List.take_succ_cons, hsplit]
    congr 1
    by_cases hlong : n + 1 ≤ items.length
    · -- without repetitions at most one of the `n + 1` members is gone, and `n` are left
      refine (List.take_append_of_le_length ?_).symm
      have hfirst : (items.take (n + 1)).Nodup := (List.take_sublist _ _).nodup hnodup
      calc n = (items.take (n + 1)).length - 1 := by rw [List.length_take]; omega
        _ ≤ ((items.take (n + 1)).erase a).length := List.le_length_erase
        _ = ((items.take (n + 1)).filter (· != a)).length := by rw [hfirst.erase_eq_filter]
    · rw [List.drop_eq_nil_of_le (by omega), List.filter_nil, List.append_nil]

namespace Slicer

/-! ## Commands -/

/-- What a slicer can be told. -/
inductive Command where
  /-- To find what may influence a criterion. -/
  | backward (c : Criterion)
  /-- To find what a criterion may influence. -/
  | forward (c : Criterion)
  /-- To find what may influence the values at a criterion. -/
  | thin (c : Criterion)
  /-- To find a slice in the configured direction. -/
  | slice (c : Criterion)
  /-- To find what lies between two criteria. -/
  | chop (source target : Criterion)
  /-- To forget all answers. -/
  | clear
  deriving DecidableEq, Repr

/-- The query that a command makes. -/
def Command.query? (config : SliceConfig) : Command → Option Query
  | .backward c => some (.backward config c)
  | .forward c => some (.forward config c)
  | .thin c => some (.thin c)
  | .slice c => some (.configured config c)
  | .chop source target => some (.chop source target)
  | .clear => none

/-- A slicer after a command. -/
def perform (s : Slicer) (command : Command) : Slicer :=
  match command.query? s.config with
  | some query => (s.ask query).2
  | none => s.forget.2

/-- A slicer after some commands. -/
def performAll (s : Slicer) (commands : List Command) : Slicer := commands.foldl perform s

/-- The queries whose answers are remembered. -/
def keys (s : Slicer) : List Query := s.cache.map (·.1)

/-- The queries that commands make since the last one to forget, the latest first. -/
def asked (config : SliceConfig) (commands : List Command) : List Query :=
  commands.foldl (fun earlier command =>
    match command.query? config with
    | some query => query :: earlier
    | none => []) []

/-- The queries among these that have an answer, each where it was asked last. -/
def recent (g : SystemGraph) (config : SliceConfig) (commands : List Command) : List Query :=
  ((asked config commands).filter fun query => (query.answer g config).isOk).eraseDups

/-- A slicer with a configuration answers queries about a graph, and remembers answers, as it
    should after some commands. -/
structure Recalls (g : SystemGraph) (config : SliceConfig) (commands : List Command) (s : Slicer) :
    Prop where
  /-- The answers are those of a new slicer which remembers nothing. -/
  answers : ∃ fresh, Slicer.new g { config with cacheCapacity := 0 } = .ok fresh ∧
    ∀ query, (s.ask query).1 = (fresh.ask query).1
  keys : s.keys = (recent g config commands).take config.cacheCapacity.toNat
  hit : ∀ query, (s.ask query).2.hits = if query ∈ s.keys then s.hits + 1 else s.hits
  counted : ∀ query, (s.ask query).2.queries = s.queries + 1
  hits_le : s.hits ≤ s.queries
  hits_add_misses : s.hits + s.misses = s.queries
  cached_le : s.cache.length ≤ s.capacity
  forget : s.forget.1 = s.keys.length ∧ s.forget.2.keys = []
  failed : ∀ query e, (s.ask query).1 = .error e → (s.ask query).2.cache = s.cache

/-! ## One query -/

variable {g : SystemGraph} {config : SliceConfig} {s : Slicer} {query : Query}
  {commands : List Command}

/-- No answer is remembered just for queries that are not listed. -/
theorem lookup_eq_none_iff : s.cache.lookup query = none ↔ query ∉ s.keys := by
  rw [List.lookup_eq_none_iff, keys, List.mem_map]
  constructor
  · rintro hnone ⟨entry, hentry, rfl⟩
    simpa using hnone entry hentry
  · intro hkeys entry hentry
    simp only [bne_iff_ne, ne_eq]
    rintro rfl
    exact hkeys ⟨entry, hentry, rfl⟩

/-- What a query does: its answer is remembered, or it is found and remembered, or there is
    none. -/
theorem Faithful.ask_cases (h : s.Faithful g config) (query : Query) :
    (∃ slice, query ∈ s.keys ∧ query.answer g config = .ok slice ∧ s.ask query =
      (.ok slice, { s with
        queries := s.queries + 1, cache := s.remember query slice, hits := s.hits + 1 })) ∨
    (∃ slice, query ∉ s.keys ∧ query.answer g config = .ok slice ∧ s.ask query =
      (.ok slice, { s with queries := s.queries + 1, cache := s.remember query slice })) ∨
    ∃ e, query ∉ s.keys ∧ query.answer g config = .error e ∧
      s.ask query = (.error (.criterion e), { s with queries := s.queries + 1 }) := by
  have hanswer : query.answer s.graph s.config = query.answer g config := by
    rw [h.graph_eq, h.config_eq]
  cases hlookup : s.cache.lookup query with
  | some slice =>
    obtain ⟨before, after, hcache, -⟩ := List.lookup_eq_some_iff.1 hlookup
    have hmem : (query, slice) ∈ s.cache := hcache ▸ by simp
    refine .inl ⟨slice, List.mem_map_of_mem hmem, h.cached _ hmem, ?_⟩
    simp only [Slicer.ask, hlookup]
    rfl
  | none =>
    have hkeys := lookup_eq_none_iff.1 hlookup
    cases hslice : query.answer g config with
    | ok slice =>
      refine .inr (.inl ⟨slice, hkeys, rfl, ?_⟩)
      simp only [Slicer.ask, hlookup, hanswer, hslice]
      rfl
    | error e =>
      refine .inr (.inr ⟨e, hkeys, rfl, ?_⟩)
      simp only [Slicer.ask, hlookup, hanswer, hslice]

/-- What is remembered is found there. -/
theorem Faithful.hits_ask (h : s.Faithful g config) (query : Query) :
    (s.ask query).2.hits = if query ∈ s.keys then s.hits + 1 else s.hits := by
  obtain ⟨_, hkey, -, hask⟩ | ⟨_, hkey, -, hask⟩ | ⟨_, hkey, -, hask⟩ := h.ask_cases query
  · rw [hask, if_pos hkey]
  · rw [hask, if_neg hkey]
  · rw [hask, if_neg hkey]

/-- Each query is counted. -/
theorem Faithful.queries_ask (h : s.Faithful g config) (query : Query) :
    (s.ask query).2.queries = s.queries + 1 := by
  obtain ⟨_, -, -, hask⟩ | ⟨_, -, -, hask⟩ | ⟨_, -, -, hask⟩ := h.ask_cases query <;> rw [hask]

/-- A query without an answer changes nothing of what is remembered. -/
theorem Faithful.cache_ask_of_error (h : s.Faithful g config) {e : Error}
    (herror : (s.ask query).1 = .error e) : (s.ask query).2.cache = s.cache := by
  obtain ⟨_, -, -, hask⟩ | ⟨_, -, -, hask⟩ | ⟨_, -, -, hask⟩ := h.ask_cases query
  · rw [hask] at herror
    cases herror
  · rw [hask] at herror
    cases herror
  · rw [hask]

/-- An answer is remembered in front, and what there is no room for is forgotten. -/
theorem map_remember (s : Slicer) (query : Query) (slice : Slice) :
    (s.remember query slice).map (·.1) = (query :: s.keys.filter (· != query)).take s.capacity := by
  rw [remember, List.map_take, List.map_cons, keys, List.filter_map]
  rfl

/-! ## Commands one after another -/

/-- A command asks another query, or makes all of them forgotten. -/
theorem asked_concat (config : SliceConfig) (commands : List Command) (command : Command) :
    asked config (commands ++ [command]) =
      match command.query? config with
      | some query => query :: asked config commands
      | none => [] := by
  rw [asked, List.foldl_append]
  rfl

/-- A query that has an answer becomes the latest one. -/
theorem recent_concat_ok {command : Command} (hquery : command.query? config = some query)
    {slice : Slice} (hslice : query.answer g config = .ok slice) :
    recent g config (commands ++ [command]) =
      query :: (recent g config commands).filter (· != query) := by
  have hok : (query.answer g config).isOk = true := by rw [hslice]; rfl
  rw [recent, asked_concat, hquery]
  dsimp only
  rw [List.filter_cons, if_pos hok, List.eraseDups_cons, eraseDups_filter, recent]
  rfl

/-- A query that has no answer is not remembered. -/
theorem recent_concat_error {command : Command} (hquery : command.query? config = some query)
    {e : CriterionError} (herror : query.answer g config = .error e) :
    recent g config (commands ++ [command]) = recent g config commands := by
  have hok : ¬(query.answer g config).isOk = true := by
    rw [herror]
    exact Bool.false_ne_true
  rw [recent, asked_concat, hquery]
  dsimp only
  rw [List.filter_cons, if_neg hok, recent]

/-- Nothing is remembered behind a command to forget. -/
theorem recent_concat_clear {command : Command} (hquery : command.query? config = none) :
    recent g config (commands ++ [command]) = [] := by
  rw [recent, asked_concat, hquery]
  rfl

/-- A slicer remembers, of what it has answered after some commands, what was asked last. -/
structure Remembers (g : SystemGraph) (config : SliceConfig) (commands : List Command) (s : Slicer) :
    Prop where
  faithful : s.Faithful g config
  keys : s.keys = (recent g config commands).take config.cacheCapacity.toNat
  hits_le : s.hits ≤ s.queries

theorem Remembers.capacity_eq (h : Remembers g config commands s) :
    s.capacity = config.cacheCapacity.toNat := by
  rw [capacity, h.faithful.config_eq]

/-- The query of a command that has an answer goes to the front. -/
theorem Remembers.map_remember (h : Remembers g config commands s) {command : Command}
    (hquery : command.query? config = some query) {slice : Slice}
    (hslice : query.answer g config = .ok slice) :
    (s.remember query slice).map (·.1) =
      (recent g config (commands ++ [command])).take config.cacheCapacity.toNat := by
  rw [Slicer.map_remember, h.keys, h.capacity_eq, recent_concat_ok hquery hslice]
  exact take_cons_filter_take (nodup_eraseDups _) query _

/-- A command keeps what a slicer remembers in step. -/
theorem Remembers.perform (h : Remembers g config commands s) (command : Command) :
    Remembers g config (commands ++ [command]) (s.perform command) := by
  have hle := h.hits_le
  rw [Slicer.perform, h.faithful.config_eq]
  cases hquery : command.query? config with
  | some query =>
    dsimp only
    refine ⟨(h.faithful.ask query).2, ?_, ?_⟩
    · obtain ⟨slice, -, hslice, hask⟩ | ⟨slice, -, hslice, hask⟩ | ⟨e, -, herror, hask⟩ :=
        h.faithful.ask_cases query
      · rw [hask]
        exact h.map_remember hquery hslice
      · rw [hask]
        exact h.map_remember hquery hslice
      · rw [hask, recent_concat_error hquery herror]
        exact h.keys
    · rw [h.faithful.hits_ask, h.faithful.queries_ask]
      split <;> omega
  | none =>
    refine ⟨.of_empty h.faithful.graph_eq h.faithful.config_eq rfl, ?_, hle⟩
    rw [recent_concat_clear hquery, List.take_nil]
    rfl

/-- A slicer remembers what it should after any commands. -/
theorem remembers_performAll (hs : Remembers g config [] s) (commands : List Command) :
    Remembers g config commands (s.performAll commands) := by
  induction commands using List.reverseRecOn with
  | nil => exact hs
  | append_singleton commands command ih =>
    rw [performAll, List.foldl_append]
    exact ih.perform command

/-! ## New slicers -/

/-- A slicer is made of a valid configuration, with nothing remembered. -/
theorem new_eq_ok (hnew : Slicer.new g config = .ok s) :
    config.validate = .ok () ∧ s = { graph := g, config } := by
  unfold Slicer.new at hnew
  cases hvalid : config.validate with
  | error e =>
    rw [hvalid] at hnew
    cases hnew
  | ok u =>
    rw [hvalid] at hnew
    cases hnew
    exact ⟨rfl, rfl⟩

/-- A configuration stays sensible if nothing is to be remembered. -/
theorem validate_uncached (hvalid : config.validate = .ok ()) :
    ({ config with cacheCapacity := 0 } : SliceConfig).validate = .ok () := by
  unfold SliceConfig.validate at hvalid ⊢
  cases hlimit : Limit.cacheCapacity.check config.cacheCapacity with
  | error e =>
    rw [hlimit] at hvalid
    cases hvalid
  | ok u =>
    rw [hlimit] at hvalid
    exact hvalid

/-- Whatever a slicer is told, it answers as if it remembered nothing, and the queries whose
    answers it remembers are the last ones that it answered, as many as there is room for. -/
theorem performAll_recalls (hnew : Slicer.new g config = .ok s) (commands : List Command) :
    Recalls g config commands (s.performAll commands) := by
  obtain ⟨hvalid, hs⟩ := new_eq_ok hnew
  have hstart : Remembers g config [] s := by
    rw [hs]
    exact ⟨.of_empty rfl rfl rfl, List.take_nil.symm, Nat.le_refl 0⟩
  have h := remembers_performAll hstart commands
  have hfresh : Slicer.new g { config with cacheCapacity := 0 } =
      .ok { graph := g, config := { config with cacheCapacity := 0 } } := by
    rw [Slicer.new, validate_uncached hvalid]
    rfl
  refine ⟨⟨_, hfresh, fun query => ?_⟩, h.keys, h.faithful.hits_ask, h.faithful.queries_ask, h.hits_le, ?_,
    ?_, ⟨(List.length_map _).symm, rfl⟩, fun query e herror => h.faithful.cache_ask_of_error herror⟩
  · -- the capacity is the only difference, and no answer depends on it
    rw [(h.faithful.ask query).1, (Serves.new hfresh).ask_eq]
    cases query <;> rfl
  · rw [misses]
    exact Nat.add_sub_of_le h.hits_le
  · calc (s.performAll commands).cache.length = (s.performAll commands).keys.length :=
        (List.length_map _).symm
      _ ≤ config.cacheCapacity.toNat := h.keys ▸ List.length_take_le _ _
      _ = (s.performAll commands).capacity := h.capacity_eq.symm

/-- Four queries, of which the third has no answer, and the second of them again. -/
def repeatedQuery : List Command :=
  [.backward ⟨.node ⟨0⟩, none⟩, .thin ⟨.node ⟨1⟩, none⟩, .forward ⟨.line 9, none⟩,
    .chop ⟨.node ⟨0⟩, none⟩ ⟨.element ⟨7⟩, none⟩, .thin ⟨.node ⟨1⟩, none⟩]

/-- There is room for two answers: the first one is forgotten when a third query is answered, but
    not for one that fails, and what is asked again goes to the front. -/
theorem twoSources_recalls : ∃ s, Slicer.new twoSources.graph ⟨.backward, .closure, true, true, 2⟩ = .ok s ∧
    Recalls twoSources.graph ⟨.backward, .closure, true, true, 2⟩ repeatedQuery (s.performAll repeatedQuery) ∧
    recent twoSources.graph ⟨.backward, .closure, true, true, 2⟩ repeatedQuery =
      [.thin ⟨.node ⟨1⟩, none⟩, .chop ⟨.node ⟨0⟩, none⟩ ⟨.element ⟨7⟩, none⟩,
        .slice ⟨.node ⟨0⟩, none⟩ .backward true] :=
  ⟨_, rfl, performAll_recalls rfl _, by cbv⟩

end Slicer

end Slicing
