import EosForce.TrxJobProofs
import Mathlib.Algebra.Order.Ring.Int

/-! # What a job does to RAM and to deferred transactions

    Setting up and settling a transaction leave both alone.  While it executes,
    RAM changes where code asks for it and where a deferred transaction is
    billed or refunded, and ONLY ONE THAT IS THERE is refunded.  The book of a
    job lists these changes; it accounts for all the difference that the job
    makes, however it ends. -/

namespace JobLedger

open ChainTypes TrxTypes Resource Database TrxContext ApplyContext StepRule
open QuietStep ExecSteps TrxPhase TrxJob Relation List

variable {σ : Type}

/-! ## The book -/

/-- One entry: RAM that code asked for, the bill or the refund of a deferred
    transaction, or that one was entered. -/
inductive Entry where
  | asked (account : Name) (d : Int)
  | billed (x : GeneratedTransaction)
  | refunded (x : GeneratedTransaction)
  | entered (x : GeneratedTransaction)

/-- What an entry adds to the RAM of an account. -/
def Entry.ram (env : Env σ) (a : Name) : Entry → Int
  | .asked account d => if account = a then d else 0
  | .billed x => if x.payer = a then (billableSize env x : Nat) else 0
  | .refunded x => if x.payer = a then -((billableSize env x : Nat) : Int) else 0
  | .entered _ => 0

/-- What all the entries add. -/
def ramOfBook (env : Env σ) (book : List Entry) (a : Name) : Int :=
  (book.map (Entry.ram env a)).sum

/-- The book accounts for the difference between the databases. -/
structure Accounts (env : Env σ) (db : Db σ) (book : List Entry) (db' : Db σ) : Prop where
  ram : ∀ a, (ramOf db'.resources a : Int) = ramOf db.resources a + ramOfBook env book a
  asked : ∀ account d, .asked account d ∈ book → Asked env account d
  generated : ∀ x ∈ db'.generated, x ∈ db.generated ∨ .entered x ∈ book
  refunded : ∀ x, .refunded x ∈ book → x ∈ db.generated ∨ .entered x ∈ book

variable {env : Env σ} {node : Node} {db db' db'' : Db σ} {s s' : ExecState σ}

theorem ramOfBook_append (book book' : List Entry) (a : Name) :
    ramOfBook env (book ++ book') a = ramOfBook env book a + ramOfBook env book' a := by
  rw [ramOfBook, map_append, sum_append]
  rfl

theorem ramOfBook_singleton (e : Entry) (a : Name) : ramOfBook env [e] a = e.ram env a := by
  rw [ramOfBook, map_singleton, sum_singleton]

/-- Nothing to enter where RAM stays and deferred transactions go at most. -/
theorem accounts_nil (hram : RamKept db.resources db'.resources)
    (hg : db'.generated ⊆ db.generated) : Accounts env db [] db' where
  ram a := by
    rw [hram a]
    exact (Int.add_zero _).symm
  asked := fun _ _ h => absurd h not_mem_nil
  generated := fun _ hx => .inl (hg hx)
  refunded := fun _ h => absurd h not_mem_nil

theorem accounts_kept (h : Kept db db') : Accounts env db [] db' :=
  accounts_nil h.ram fun _ hx => h.generated ▸ hx

theorem Accounts.trans {book book' : List Entry} (h : Accounts env db book db')
    (h' : Accounts env db' book' db'') : Accounts env db (book ++ book') db'' where
  ram a := by
    rw [h'.ram, h.ram, ramOfBook_append, Int.add_assoc]
  asked account d hmem := (mem_append.mp hmem).elim (h.asked account d) (h'.asked account d)
  generated x hx := by
    rcases h'.generated x hx with hmid | hin
    · exact (h.generated x hmid).imp_right (mem_append_left book')
    · exact .inr (mem_append_right book hin)
  refunded x hmem := by
    rcases mem_append.mp hmem with hmem | hmem
    · exact (h.refunded x hmem).imp_right (mem_append_left book')
    · rcases h'.refunded x hmem with hmid | hin
      · exact (h.generated x hmid).imp_right (mem_append_left book')
      · exact .inr (mem_append_right book hin)

/-! ## Step by step -/

theorem ramOf_setUsage {r : Resources} {account : Name} {u : ResourceUsage} {n : Nat}
    (hu : r.usage account = some u) (a : Name) :
    (ramOf (setUsage r account { u with ramUsage := n }) a : Int) =
      ramOf r a + if account = a then (n - u.ramUsage : Int) else 0 := by
  rw [ramOf, ramOf, setUsage]
  dsimp only
  by_cases ha : account = a
  · subst ha
    rw [if_pos rfl, if_pos rfl, hu, Option.map_some, Option.map_some]
    show (n : Int) = u.ramUsage + (n - u.ramUsage)
    omega
  · rw [if_neg fun h => ha h.symm, if_neg ha, Int.add_zero]

/-- A change of RAM is one entry. -/
theorem accounts_ram {account : Name} {u : ResourceUsage} {n : Nat}
    (hu : db.resources.usage account = some u)
    (hwhy : RamWhy env (Asked env) db account (n - u.ramUsage)) :
    ∃ book, Accounts env db book
      { db with resources := setUsage db.resources account { u with ramUsage := n } } := by
  have hentry : ∀ e : Entry,
      (∀ a, e.ram env a = if account = a then (n - u.ramUsage : Int) else 0) →
      ∀ a, (ramOf (setUsage db.resources account { u with ramUsage := n }) a : Int) =
        ramOf db.resources a + ramOfBook env [e] a := by
    intro e he a
    rw [ramOf_setUsage hu, ramOfBook_singleton, he]
  cases hwhy with
  | asked h =>
    refine ⟨[.asked account (n - u.ramUsage)], hentry _ fun _ => rfl, ?_, fun x hx => .inl hx, ?_⟩
    · intro account' d hmem
      cases mem_singleton.mp hmem
      exact h
    · intro x hmem
      cases mem_singleton.mp hmem
  | billed x hpayer hd =>
    refine ⟨[.billed x], hentry _ fun a => ?_, ?_, fun x hx => .inl hx, ?_⟩
    · rw [Entry.ram, hpayer, hd]
    · intro account' d hmem
      cases mem_singleton.mp hmem
    · intro y hmem
      cases mem_singleton.mp hmem
  | refunded x hx hpayer hd =>
    refine ⟨[.refunded x], hentry _ fun a => ?_, ?_, fun x hx => .inl hx, ?_⟩
    · rw [Entry.ram, hpayer, hd]
    · intro account' d hmem
      cases mem_singleton.mp hmem
    · intro y hmem
      cases mem_singleton.mp hmem
      exact .inl hx

theorem accounts_quiet (h : Quiet env (Asked env) s s') :
    ∃ book, Accounts env s.db book s'.db := by
  cases h with
  | tick => exact ⟨[], accounts_kept (.refl _)⟩
  | ram account u n c hu _ hwhy => exact accounts_ram hu hwhy
  | limits r h =>
    refine ⟨[], accounts_nil (fun a => ?_) (Subset.refl _)⟩
    show ramOf r a = _
    rw [ramOf, ramOf]
    rcases h.rows a with hsame | ⟨hnone, hnew⟩
    · rw [hsame]
    · rw [hnone, hnew]
      rfl
  | keep db h hr hg =>
    refine ⟨[], accounts_nil (fun a => ?_) fun _ hx => hg ▸ hx⟩
    show ramOf db.resources a = _
    rw [hr]
  | enter x =>
    refine ⟨[.entered x], fun a => ?_, ?_, ?_, ?_⟩
    · rw [ramOfBook_singleton]
      exact (Int.add_zero _).symm
    · intro account d hmem
      cases mem_singleton.mp hmem
    · intro y hy
      exact (mem_append.mp hy).imp_right fun h => mem_singleton.mpr
        (congrArg Entry.entered (mem_singleton.mp h))
    · intro y hmem
      cases mem_singleton.mp hmem
  | drop sender senderId => exact ⟨[], accounts_nil (fun _ => rfl) fun _ hx => mem_of_mem_filter hx⟩

theorem accounts_step (h : Step env s s') : ∃ book, Accounts env s.db book s'.db := by
  cases h with
  | quiet h => exact accounts_quiet h
  | write | schedule | charge | refuse | execute => exact ⟨[], accounts_kept ⟨fun _ => rfl, rfl⟩⟩

theorem accounts_steps (h : ReflTransGen (Step env) s s') :
    ∃ book, Accounts env s.db book s'.db := by
  induction h with
  | refl => exact ⟨[], accounts_kept (.refl _)⟩
  | tail _ hstep ih =>
    obtain ⟨book, hbook⟩ := ih
    obtain ⟨last, hlast⟩ := accounts_step hstep
    exact ⟨book ++ last, hbook.trans hlast⟩

/-- **THE BOOK OF A JOB**: it accounts for the RAM of every account and for
    every deferred transaction, however the job ends. -/
theorem accounts_run (env : Env σ) (node : Node) (db : Db σ) (job : Job) :
    ∃ book, Accounts env db book (final (job.run env node db)).db := by
  cases outcome_run env node db job with
  | refused _ hledger => exact ⟨[], accounts_kept hledger⟩
  | ran s1 s2 hr hsteps hsettled =>
    obtain ⟨book, hbook⟩ := accounts_steps hsteps
    have hstart : Accounts env db [] s1.db := accounts_kept hr.ledger
    exact ⟨_, (hstart.trans hbook).trans (accounts_kept hsettled.ledger)⟩

end JobLedger
