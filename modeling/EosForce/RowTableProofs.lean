import Mathlib.Data.List.Nodup
import Mathlib.Algebra.Order.BigOperators.Group.List
import Mathlib.Algebra.Order.Ring.Int
import Mathlib.Tactic.Abel

/-! # Tables with a unique index

    A table is a list of rows, oldest first, in which no key occurs twice.
    The key is a function of the row, so the table carries the uniqueness of
    its index and no operation can lose it.  Everything here rests on one
    decomposition: the row with a key splits the list into two parts that do
    not hold the key.  What an operation does to a sum over the rows, or to a
    number of rows, follows by rewriting with it. -/

namespace RowTable

open List

variable {κ α : Type}

/-- Rows with pairwise different keys. -/
structure Table (key : α → κ) where
  rows : List α
  keyed : (rows.map key).Nodup

namespace Table

variable {key : α → κ}

/-- The table with no row. -/
def empty : Table key := ⟨[], List.nodup_nil⟩

instance : Inhabited (Table key) := ⟨empty⟩

variable {t : Table key}

/-- A key belongs to one row. -/
theorem eq_of_key {r r' : α} (h : r ∈ t.rows) (h' : r' ∈ t.rows) (hk : key r = key r') : r = r' :=
  inj_on_of_nodup_map t.keyed h h' hk

/-! ## Sums over the rows -/

/-- The sum of a weight over all rows. -/
def total (t : Table key) (w : α → Int) : Int := (t.rows.map w).sum

/-- A number of rows is the sum of a weight. -/
theorem total_indicator (p : α → Prop) [DecidablePred p] :
    t.total (fun r => if p r then 1 else 0) = (t.rows.countP fun r => decide (p r) : Nat) := by
  show (t.rows.map _).sum = _
  induction t.rows with
  | nil => rfl
  | cons x rest ih =>
    rw [map_cons, sum_cons, ih, countP_cons]
    by_cases hx : p x
    · rw [if_pos hx, if_pos (decide_eq_true hx)]
      push_cast
      abel
    · rw [if_neg hx, if_neg (by simpa using hx)]
      simp

theorem total_nonneg {w : α → Int} (hw : ∀ x, 0 ≤ w x) : 0 ≤ t.total w := by
  refine sum_nonneg fun y hy => ?_
  obtain ⟨x, -, rfl⟩ := mem_map.mp hy
  exact hw x

/-- A weight that is nowhere negative sums to no less than any row's part. -/
theorem le_total {w : α → Int} {r : α} (hw : ∀ x ∈ t.rows, 0 ≤ w x) (h : r ∈ t.rows) :
    w r ≤ t.total w := by
  have hmem : w r ∈ t.rows.map w := mem_map.mpr ⟨r, h, rfl⟩
  refine single_le_sum ?_ _ hmem
  intro y hy
  obtain ⟨x, hx, rfl⟩ := mem_map.mp hy
  exact hw x hx

/-! ## Lookup -/

variable [DecidableEq κ]

/-- The row with a key. -/
def find (t : Table key) (k : κ) : Option α := t.rows.find? fun r => decide (key r = k)

variable {k : κ} {r : α}

theorem find_some (h : t.find k = some r) : r ∈ t.rows ∧ key r = k := by
  rw [find] at h
  exact ⟨mem_of_find?_eq_some h, by simpa using List.find?_some h⟩

theorem find_none : t.find k = none ↔ ∀ r ∈ t.rows, key r ≠ k := by
  rw [find, List.find?_eq_none]
  simp

theorem find_of_mem (h : r ∈ t.rows) : t.find (key r) = some r := by
  cases hf : t.find (key r) with
  | none => exact absurd rfl (find_none.mp hf r h)
  | some r' =>
    obtain ⟨hmem, hkey⟩ := find_some hf
    rw [eq_of_key hmem h hkey]

theorem find_eq_some : t.find k = some r ↔ r ∈ t.rows ∧ key r = k := by
  constructor
  · exact find_some
  · rintro ⟨h, rfl⟩
    exact find_of_mem h

/-- The row with a key splits the table. -/
theorem split (h : t.find k = some r) :
    ∃ before after, t.rows = before ++ r :: after ∧
      (∀ x ∈ before, key x ≠ k) ∧ ∀ x ∈ after, key x ≠ k := by
  obtain ⟨hmem, rfl⟩ := find_some h
  obtain ⟨before, after, hrows⟩ := append_of_mem hmem
  have hnodup := t.keyed
  rw [hrows, map_append, map_cons, nodup_middle, nodup_cons] at hnodup
  refine ⟨before, after, hrows, ?_, ?_⟩
  · intro x hx hk
    exact hnodup.1 (mem_append_left _ (mem_map.mpr ⟨x, hx, hk⟩))
  · intro x hx hk
    exact hnodup.1 (mem_append_right _ (mem_map.mpr ⟨x, hx, hk⟩))

/-! ## Operations -/

/-- Add a row whose key is free. -/
def insert (t : Table key) (r : α) (h : t.find (key r) = none) : Table key where
  rows := t.rows ++ [r]
  keyed := by
    rw [List.map_append, List.nodup_append]
    refine ⟨t.keyed, List.nodup_singleton _, ?_⟩
    intro k hk k' hk' heq
    obtain ⟨x, hx, rfl⟩ := List.mem_map.mp hk
    obtain rfl := List.mem_singleton.mp hk'
    exact find_none.mp h x hx heq

/-- Remove the row with a key. -/
def erase (t : Table key) (k : κ) : Table key where
  rows := t.rows.filter fun r => decide (key r ≠ k)
  keyed := t.keyed.sublist (List.filter_sublist.map key)

theorem keys_changed {f : α → α} (hf : ∀ r, key (f r) = key r) (k : κ) (rows : List α) :
    (rows.map fun r => if key r = k then f r else r).map key = rows.map key := by
  rw [map_map]
  refine map_congr_left fun r _ => ?_
  show key (if key r = k then f r else r) = key r
  split
  · exact hf r
  · rfl

/-- Change the row with a key, its key apart. -/
def modify (t : Table key) (k : κ) (f : α → α) (hf : ∀ r, key (f r) = key r) : Table key where
  rows := t.rows.map fun r => if key r = k then f r else r
  keyed := by
    rw [keys_changed hf]
    exact t.keyed

variable {f : α → α} {hf : ∀ r, key (f r) = key r} {hfree : t.find (key r) = none}

theorem mem_insert {x : α} : x ∈ (t.insert r hfree).rows ↔ x ∈ t.rows ∨ x = r := by
  show x ∈ t.rows ++ [r] ↔ _
  rw [mem_append, mem_singleton]

theorem mem_erase {x : α} : x ∈ (t.erase k).rows ↔ x ∈ t.rows ∧ key x ≠ k := by
  show x ∈ t.rows.filter _ ↔ _
  rw [mem_filter, decide_eq_true_eq]

theorem mem_modify {x : α} :
    x ∈ (t.modify k f hf).rows ↔ ∃ y ∈ t.rows, (if key y = k then f y else y) = x := by
  show x ∈ t.rows.map _ ↔ _
  rw [mem_map]

theorem rows_erase (h : t.find k = some r) :
    ∃ before after, t.rows = before ++ r :: after ∧ (t.erase k).rows = before ++ after := by
  obtain ⟨before, after, hrows, hb, ha⟩ := split h
  refine ⟨before, after, hrows, ?_⟩
  show t.rows.filter _ = _
  rw [hrows, filter_append, filter_cons_of_neg (by simpa using (find_some h).2),
    filter_eq_self.mpr (fun x hx => decide_eq_true (hb x hx)),
    filter_eq_self.mpr (fun x hx => decide_eq_true (ha x hx))]

/-- A change of a row keeps the keys. -/
theorem keys_modify (k : κ) (f : α → α) (hf : ∀ r, key (f r) = key r) :
    (t.modify k f hf).rows.map key = t.rows.map key :=
  keys_changed hf k t.rows

theorem rows_modify (f : α → α) (hf : ∀ r, key (f r) = key r) (h : t.find k = some r) :
    ∃ before after, t.rows = before ++ r :: after ∧
      (t.modify k f hf).rows = before ++ f r :: after := by
  obtain ⟨before, after, hrows, hb, ha⟩ := split h
  refine ⟨before, after, hrows, ?_⟩
  have hsame : ∀ l : List α, (∀ x ∈ l, key x ≠ k) →
      l.map (fun r => if key r = k then f r else r) = l := by
    intro l hl
    exact (map_congr_left fun x hx => if_neg (hl x hx)).trans (map_id' l)
  show t.rows.map _ = _
  rw [hrows, map_append, map_cons, hsame _ hb, hsame _ ha, if_pos (find_some h).2]

/-! ## What is found afterwards -/

theorem find_insert {k' : κ} :
    (t.insert r hfree).find k' = if k' = key r then some r else t.find k' := by
  show List.find? _ (t.rows ++ [r]) = _
  rw [List.find?_append]
  by_cases hk : k' = key r
  · subst hk
    rw [if_pos rfl]
    have hnone : t.rows.find? (fun x => decide (key x = key r)) = none := hfree
    rw [hnone]
    simp
  · rw [if_neg hk]
    have hother : List.find? (fun x => decide (key x = k')) [r] = none := by
      simpa using fun h => hk h.symm
    rw [hother, Option.or_none]
    rfl

theorem find_erase {k' : κ} : (t.erase k).find k' = if k' = k then none else t.find k' := by
  by_cases hk : k' = k
  · subst hk
    rw [if_pos rfl, find_none]
    intro x hx
    exact (mem_erase.mp hx).2
  · rw [if_neg hk]
    apply Option.ext
    intro x
    rw [find_eq_some, find_eq_some, mem_erase]
    constructor
    · rintro ⟨⟨hx, -⟩, hkey⟩
      exact ⟨hx, hkey⟩
    · rintro ⟨hx, hkey⟩
      exact ⟨⟨hx, hkey ▸ hk⟩, hkey⟩

theorem find_modify {k' : κ} :
    (t.modify k f hf).find k' = if k' = k then (t.find k).map f else t.find k' := by
  apply Option.ext
  intro x
  rw [find_eq_some, mem_modify]
  by_cases hk : k' = k
  · subst hk
    rw [if_pos rfl, Option.map_eq_some_iff]
    constructor
    · rintro ⟨⟨y, hy, rfl⟩, hkey⟩
      split at hkey
      · rename_i hyk
        rw [if_pos hyk]
        exact ⟨y, find_eq_some.mpr ⟨hy, hyk⟩, rfl⟩
      · rename_i hyk
        exact absurd hkey hyk
    · rintro ⟨y, hy, rfl⟩
      obtain ⟨hmem, hyk⟩ := find_some hy
      exact ⟨⟨y, hmem, if_pos hyk⟩, (hf y).trans hyk⟩
  · rw [if_neg hk, find_eq_some]
    constructor
    · rintro ⟨⟨y, hy, rfl⟩, hkey⟩
      split at hkey
      · rename_i hyk
        exact absurd ((hf y ▸ hkey).symm.trans hyk) hk
      · rename_i hyk
        rw [if_neg hyk]
        exact ⟨hy, hkey⟩
    · rintro ⟨hx, hkey⟩
      have hxk : key x ≠ k := fun h => hk (hkey.symm.trans h)
      exact ⟨⟨x, hx, if_neg hxk⟩, hkey⟩

/-! ## Sums afterwards -/

variable {w : α → Int}

theorem total_insert : (t.insert r hfree).total w = t.total w + w r := by
  show ((t.rows ++ [r]).map w).sum = _
  simp [total]

theorem total_erase (h : t.find k = some r) : (t.erase k).total w = t.total w - w r := by
  obtain ⟨before, after, hrows, herase⟩ := rows_erase h
  simp only [total, hrows, herase, map_append, map_cons, sum_append, sum_cons]
  abel

/-- A change that no row's weight sees. -/
theorem total_modify_same (h : ∀ r, w (f r) = w r) : (t.modify k f hf).total w = t.total w := by
  show ((t.rows.map _).map w).sum = _
  rw [map_map]
  refine congrArg List.sum (map_congr_left fun r _ => ?_)
  show w (if key r = k then f r else r) = w r
  split
  · exact h r
  · rfl

theorem total_modify (h : t.find k = some r) :
    (t.modify k f hf).total w = t.total w - w r + w (f r) := by
  obtain ⟨before, after, hrows, hmodify⟩ := rows_modify f hf h
  simp only [total, hrows, hmodify, map_append, map_cons, sum_append, sum_cons]
  abel

end Table

/-! ## Tables that number their rows

    A row gets the next number when it is added, and numbers are not used
    again, so the rows stand in the order of their numbers. -/

/-- Rows with increasing numbers. -/
structure Serial (id : α → Nat) where
  rows : List α
  next : Nat
  sorted : (rows.map id).Pairwise (· < ·)
  below : ∀ r ∈ rows, id r < next

namespace Serial

variable {id : α → Nat} {t : Serial id}

/-- No row, and numbers from 0. -/
def empty : Serial id := ⟨[], 0, List.Pairwise.nil, fun _ h => nomatch h⟩

instance : Inhabited (Serial id) := ⟨empty⟩

/-- The table that its numbers index. -/
def table (t : Serial id) : Table id :=
  ⟨t.rows, t.sorted.imp fun h => Nat.ne_of_lt h⟩

/-- The row with a number. -/
def find (t : Serial id) (k : Nat) : Option α := t.table.find k

/-- Add a row, which gets the next number. -/
def push (t : Serial id) (r : Nat → α) (h : ∀ n, id (r n) = n) : Serial id where
  rows := t.rows ++ [r t.next]
  next := t.next + 1
  sorted := by
    rw [List.map_append, List.pairwise_append]
    refine ⟨t.sorted, List.pairwise_singleton _ _, ?_⟩
    intro a ha b hb
    obtain ⟨x, hx, rfl⟩ := List.mem_map.mp ha
    obtain rfl := List.mem_singleton.mp hb
    rw [h]
    exact t.below x hx
  below := by
    intro x hx
    rcases List.mem_append.mp hx with hx | hx
    · exact Nat.lt_succ_of_lt (t.below x hx)
    · obtain rfl := List.mem_singleton.mp hx
      rw [h]
      exact Nat.lt_succ_self _

/-- Remove the row with a number. -/
def erase (t : Serial id) (k : Nat) : Serial id where
  rows := (t.table.erase k).rows
  next := t.next
  sorted := t.sorted.sublist (List.filter_sublist.map id)
  below := fun x hx => t.below x (Table.mem_erase.mp hx).1

/-- Change the row with a number. -/
def modify (t : Serial id) (k : Nat) (f : α → α) (hf : ∀ r, id (f r) = id r) : Serial id where
  rows := (t.table.modify k f hf).rows
  next := t.next
  sorted := by
    show (List.map id (t.rows.map _)).Pairwise _
    rw [Table.keys_changed hf]
    exact t.sorted
  below := by
    intro x hx
    obtain ⟨y, hy, rfl⟩ := Table.mem_modify.mp hx
    have hid : id (if id y = k then f y else y) = id y := by
      split
      · exact hf y
      · rfl
    rw [hid]
    exact t.below y hy

theorem table_modify (k : Nat) (f : α → α) (hf : ∀ r, id (f r) = id r) :
    (t.modify k f hf).table = t.table.modify k f hf := rfl

theorem table_push {r : Nat → α} {h : ∀ n, id (r n) = n} :
    ∃ hfree, (t.push r h).table = t.table.insert (r t.next) hfree := by
  refine ⟨?_, rfl⟩
  rw [Table.find_none]
  intro x hx
  rw [h]
  exact Nat.ne_of_lt (t.below x hx)

variable {k : Nat} {x : α}

theorem mem_push {r : Nat → α} (h : ∀ n, id (r n) = n) :
    x ∈ (t.push r h).rows ↔ x ∈ t.rows ∨ x = r t.next := by
  show x ∈ t.rows ++ [r t.next] ↔ _
  rw [mem_append, mem_singleton]

theorem find_push {r : Nat → α} (h : ∀ n, id (r n) = n) :
    (t.push r h).find k = if k = t.next then some (r t.next) else t.find k := by
  obtain ⟨hfree, htable⟩ := table_push (t := t) (h := h)
  rw [find, htable, Table.find_insert, h]
  rfl

theorem find_erase {n : Nat} : (t.erase k).find n = if n = k then none else t.find n :=
  Table.find_erase

theorem find_modify {f : α → α} {hf : ∀ r, id (f r) = id r} {n : Nat} :
    (t.modify k f hf).find n = if n = k then (t.find k).map f else t.find n := by
  show (t.table.modify k f hf).find n = _
  rw [Table.find_modify]
  rfl

theorem find_of_mem (h : x ∈ t.rows) : t.find (id x) = some x := Table.find_of_mem (t := t.table) h

theorem mem_erase : x ∈ (t.erase k).rows ↔ x ∈ t.rows ∧ id x ≠ k := Table.mem_erase

theorem mem_modify {f : α → α} {hf : ∀ r, id (f r) = id r} :
    x ∈ (t.modify k f hf).rows ↔ ∃ y ∈ t.rows, (if id y = k then f y else y) = x := by
  show x ∈ t.rows.map _ ↔ _
  rw [mem_map]

/-- A change of a row keeps the numbers. -/
theorem exists_modify {f : α → α} {hf : ∀ r, id (f r) = id r} {n : Nat} :
    (∃ x ∈ (t.modify k f hf).rows, id x = n) ↔ ∃ x ∈ t.rows, id x = n := by
  have hid : ∀ x, id (if id x = k then f x else x) = id x := by
    intro x
    split
    · exact hf x
    · rfl
  constructor
  · rintro ⟨x', hx', rfl⟩
    obtain ⟨x, hx, rfl⟩ := mem_modify.mp hx'
    exact ⟨x, hx, (hid x).symm⟩
  · rintro ⟨x, hx, rfl⟩
    exact ⟨_, mem_modify.mpr ⟨x, hx, rfl⟩, hid x⟩

theorem exists_erase {n : Nat} :
    (∃ x ∈ (t.erase k).rows, id x = n) ↔ (∃ x ∈ t.rows, id x = n) ∧ n ≠ k := by
  constructor
  · rintro ⟨x, hx, rfl⟩
    exact ⟨⟨x, (mem_erase.mp hx).1, rfl⟩, (mem_erase.mp hx).2⟩
  · rintro ⟨⟨x, hx, rfl⟩, hk⟩
    exact ⟨x, mem_erase.mpr ⟨hx, hk⟩, rfl⟩

/-! ### Places

    The place of a row among the rows, counted from 0. -/

/-- How many rows have a smaller number. -/
def rank (t : Serial id) (n : Nat) : Nat := t.rows.countP fun r => decide (id r < n)

theorem rank_zero : t.rank 0 = 0 := by
  rw [rank, countP_eq_zero]
  intro r _
  simp

/-- The rows before a row have smaller numbers, those behind it larger ones. -/
theorem sorted_split {pre post : List α} (h : t.rows = pre ++ x :: post) :
    (∀ y ∈ pre, id y < id x) ∧ ∀ y ∈ post, id x < id y := by
  have hsorted := t.sorted
  rw [h, map_append, pairwise_append, map_cons, pairwise_cons] at hsorted
  obtain ⟨-, ⟨hpost, -⟩, hpre⟩ := hsorted
  refine ⟨fun y hy => ?_, fun y hy => hpost _ (mem_map_of_mem hy)⟩
  exact hpre _ (mem_map_of_mem hy) _ mem_cons_self

theorem rank_split {pre post : List α} (h : t.rows = pre ++ x :: post) :
    t.rank (id x) = pre.length := by
  obtain ⟨hpre, hpost⟩ := sorted_split h
  have hbefore : pre.countP (fun r => decide (id r < id x)) = pre.length :=
    countP_eq_length.mpr fun y hy => decide_eq_true (hpre y hy)
  have hbehind : post.countP (fun r => decide (id r < id x)) = 0 := by
    rw [countP_eq_zero]
    intro y hy
    simpa using Nat.le_of_lt (hpost y hy)
  rw [rank, h, countP_append, countP_cons, hbefore, hbehind]
  simp

theorem rank_lt (hx : x ∈ t.rows) {n : Nat} (hn : id x < n) : t.rank (id x) < t.rank n := by
  obtain ⟨pre, post, h⟩ := append_of_mem hx
  obtain ⟨hpre, -⟩ := sorted_split h
  have hbefore : pre.countP (fun r => decide (id r < n)) = pre.length :=
    countP_eq_length.mpr fun y hy => decide_eq_true (Nat.lt_trans (hpre y hy) hn)
  rw [rank_split h, rank, h, countP_append, countP_cons, hbefore, if_pos (decide_eq_true hn)]
  omega

theorem rank_inj {y : α} (hx : x ∈ t.rows) (hy : y ∈ t.rows) :
    t.rank (id x) = t.rank (id y) ↔ id x = id y := by
  refine ⟨fun h => ?_, fun h => by rw [h]⟩
  rcases Nat.lt_trichotomy (id x) (id y) with hlt | heq | hlt
  · exact absurd h (Nat.ne_of_lt (rank_lt hx hlt))
  · exact heq
  · exact absurd h (Nat.ne_of_gt (rank_lt hy hlt))

end Serial

end RowTable
