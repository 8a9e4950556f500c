import Mathlib

/-! A map from keys to running states, filled from a list: `map[key(a)]`, default-constructed for
a new key, is stepped with each element in turn. The map is a list of entries in order of each
key's first element; what an entry holds depends only on the elements of its key, in order. -/

namespace GroupBy

variable {α κ σ : Type} [BEq κ] [LawfulBEq κ]
variable (key : α → κ) (step : σ → α → σ) (init : σ)

/-- `map[key(a)] = step(map[key(a)], a)`. -/
def insert : List (κ × σ) → α → List (κ × σ)
  | [], a => [(key a, step init a)]
  | (k, s) :: groups, a =>
    if k == key a then (k, step s a) :: groups else (k, s) :: insert groups a

/-- The entries the elements of `l` fill in, from an empty map. -/
def groups (l : List α) : List (κ × σ) := l.foldl (insert key step init) []

lemma lookup_insert (a : α) (k : κ) : ∀ groups : List (κ × σ),
    (insert key step init groups a).lookup k =
      if key a == k then some (step ((groups.lookup k).getD init) a) else groups.lookup k
  | [] => by
    by_cases h : key a = k
    · subst h
      simp [insert]
    · simp [insert, h, Ne.symm h]
  | (k', s) :: groups => by
    by_cases hk : k' = key a
    -- the entry of the element's key is stepped in place
    · subst hk
      by_cases h : key a = k
      · subst h
        simp [insert]
      · have hb : (k == key a) = false := beq_false_of_ne (Ne.symm h)
        simp [insert, h, List.lookup_cons, hb]
    · have hb : (key a == k') = false := beq_false_of_ne (Ne.symm hk)
      rw [insert, if_neg (by simpa using hk), List.lookup_cons, List.lookup_cons,
        lookup_insert a k groups]
      by_cases h : key a = k
      · subst h
        simp [hb]
      · simp [h]

lemma lookup_foldl_insert (k : κ) : ∀ (l : List α) (groups : List (κ × σ)),
    (l.foldl (insert key step init) groups).lookup k =
      (l.filter (key · == k)).foldl (fun o a => some (step (o.getD init) a)) (groups.lookup k)
  | [], _ => rfl
  | a :: l, groups => by
    rw [List.foldl_cons, lookup_foldl_insert k l, lookup_insert]
    by_cases h : key a == k
    · rw [if_pos h, List.filter_cons_of_pos (p := fun x => key x == k) h, List.foldl_cons]
    · rw [if_neg h, List.filter_cons_of_neg (p := fun x => key x == k) h]

omit [BEq κ] [LawfulBEq κ] in
lemma foldl_some_step : ∀ (l : List α) (s : σ),
    l.foldl (fun o a => some (step (o.getD init) a)) (some s) = some (l.foldl step s)
  | [], _ => rfl
  | a :: l, s => foldl_some_step l (step s a)

lemma lookup_groups (l : List α) (k : κ) :
    (groups key step init l).lookup k =
      if l.any (key · == k) then some ((l.filter (key · == k)).foldl step init) else none := by
  rw [groups, lookup_foldl_insert, List.lookup_nil]
  cases hf : l.filter (key · == k) with
  | nil =>
    have hany : l.any (key · == k) = false := by
      rw [List.any_eq_false]
      intro a ha hak
      exact (List.filter_eq_nil_iff.mp hf) a ha hak
    simp [hany]
  | cons a rest =>
    have ha : a ∈ l.filter (key · == k) := hf ▸ List.mem_cons_self
    have hak : (key a == k) = true := List.of_mem_filter (p := fun x => key x == k) ha
    have hany : l.any (key · == k) = true :=
      List.any_eq_true.mpr ⟨a, List.mem_of_mem_filter ha, hak⟩
    rw [hany, if_pos rfl, List.foldl_cons, List.foldl_cons]
    exact foldl_some_step step init rest _

omit [LawfulBEq κ] in
lemma keys_insert (a : α) : ∀ groups : List (κ × σ), ∀ g ∈ insert key step init groups a,
    g.1 = key a ∨ g.1 ∈ groups.map Prod.fst
  | [], g, hg => by
    rw [insert, List.mem_singleton] at hg
    exact .inl (by rw [hg])
  | (k, s) :: groups, g, hg => by
    unfold insert at hg
    split_ifs at hg with hk
    · rcases List.mem_cons.mp hg with rfl | hg
      · exact .inr List.mem_cons_self
      · exact .inr (List.mem_cons_of_mem _ (List.mem_map_of_mem hg))
    · rcases List.mem_cons.mp hg with rfl | hg
      · exact .inr List.mem_cons_self
      · rcases keys_insert a groups g hg with h | h
        · exact .inl h
        · exact .inr (List.mem_cons_of_mem _ h)

lemma nodup_insert (a : α) : ∀ groups : List (κ × σ), (groups.map Prod.fst).Nodup →
    ((insert key step init groups a).map Prod.fst).Nodup
  | [], _ => by simp [insert]
  | (k, s) :: groups, h => by
    rw [List.map_cons, List.nodup_cons] at h
    by_cases hk : k == key a
    · rw [insert, if_pos hk, List.map_cons, List.nodup_cons]
      exact h
    · rw [insert, if_neg hk, List.map_cons, List.nodup_cons]
      refine ⟨fun hmem => ?_, nodup_insert a groups h.2⟩
      -- the keys after `insert` are `key a`, which is not `k`, and the old ones
      obtain ⟨g, hg, hgk⟩ := List.mem_map.mp hmem
      rcases keys_insert key step init a groups g hg with h' | h'
      · exact hk (beq_iff_eq.mpr (hgk.symm.trans h'))
      · exact h.1 (hgk ▸ h')

lemma nodup_groups (l : List α) : ((groups key step init l).map Prod.fst).Nodup := by
  suffices ∀ (l : List α) (gs : List (κ × σ)), (gs.map Prod.fst).Nodup →
      ((l.foldl (insert key step init) gs).map Prod.fst).Nodup from this l [] List.nodup_nil
  intro l
  induction l with
  | nil => exact fun _ h => h
  | cons a l ih => exact fun gs h => ih _ (nodup_insert key step init a gs h)

lemma mem_of_lookup {k : κ} {s : σ} :
    ∀ {l : List (κ × σ)}, l.lookup k = some s → (k, s) ∈ l
  | [], h => by simp at h
  | (k', s') :: l, h => by
    rw [List.lookup_cons] at h
    split at h
    · rename_i hk
      rw [Option.some.inj h, eq_of_beq hk]
      exact List.mem_cons_self
    · exact List.mem_cons_of_mem _ (mem_of_lookup h)

lemma lookup_of_mem {k : κ} {s : σ} : ∀ {l : List (κ × σ)}, (l.map Prod.fst).Nodup →
    (k, s) ∈ l → l.lookup k = some s
  | [], _, h => absurd h List.not_mem_nil
  | (k', s') :: l, hl, h => by
    rw [List.map_cons, List.nodup_cons] at hl
    rcases List.mem_cons.mp h with h | h
    · obtain ⟨rfl, rfl⟩ := Prod.mk.inj h
      simp
    · have hmem : k ∈ l.map Prod.fst := List.mem_map_of_mem (f := Prod.fst) h
      have hne : k ≠ k' := fun hk => hl.1 (hk ▸ hmem)
      rw [List.lookup_cons, beq_false_of_ne hne]
      exact lookup_of_mem hl.2 h

lemma mem_groups_iff (l : List α) (k : κ) (s : σ) :
    (k, s) ∈ groups key step init l ↔
      (∃ a ∈ l, key a = k) ∧ s = (l.filter (key · == k)).foldl step init := by
  have hlookup : (k, s) ∈ groups key step init l ↔ (groups key step init l).lookup k = some s :=
    ⟨lookup_of_mem (nodup_groups key step init l), mem_of_lookup⟩
  rw [hlookup, lookup_groups]
  by_cases hany : l.any (key · == k)
  · obtain ⟨a, ha, hak⟩ := List.any_eq_true.mp hany
    rw [if_pos hany, Option.some.injEq]
    exact ⟨fun h => ⟨⟨a, ha, eq_of_beq hak⟩, h.symm⟩, fun h => h.2.symm⟩
  · rw [if_neg hany]
    refine ⟨fun h => absurd h (by simp), fun ⟨⟨a, ha, hak⟩, _⟩ => absurd ?_ hany⟩
    exact List.any_eq_true.mpr ⟨a, ha, by rw [hak]; exact beq_self_eq_true _⟩

end GroupBy
