import UbDkms.Ummu.McmdqWords
import Mathlib.Data.Finset.Card

/-!
# What a command queue keeps

The positions stand in the order `cons`, `cons_reg`, `prod_reg`, `prod`, less than
a round apart. A batch begins at `start`: what is before is published, or about to
be by the one CPU that publishes. A slot between `prod_reg` and `prod` is marked
only when its command is written.
-/

namespace UbDkms.Ummu

open Lib

/-! ## A CPU -/

namespace McCpu

variable (c : McCpu)

def reserved : Bool :=
  match c.pc with
  | .idle | .load | .reserve .. | .exclRead | .exclWrite _ | .exclUnlock | .spin => false
  | _ => true

def excl : Bool :=
  match c.pc with
  | .exclRead | .exclWrite _ | .exclUnlock => true
  | _ => false

def holds : Bool :=
  match c.pc with
  | .mark _ | .waitOwner | .clear | .poll .. | .publish _ | .tell _ => c.sync
  | .syncLoad | .consumed _ | .msi | .tryUnlock _ | .writeCons _ | .unlock => true
  | _ => false

def gathers : Bool :=
  match c.pc with
  | .write _ | .lock | .mark _ => c.owner
  | .waitOwner | .clear => true
  | _ => false

/-- The owner of the batch that was closed last, until the next owner may go on. -/
def publishes : Bool :=
  match c.pc with
  | .poll .. | .publish _ | .tell _ => true
  | _ => false

def markFrom : Nat :=
  match c.pc with
  | .write _ | .lock => c.sprod
  | .mark p => p
  | _ => c.eprod

def writtenTo : Nat :=
  match c.pc with
  | .write j => c.sprod + j
  | _ => c.eprod

/-- `x` is below all that the call may write to `cons`. -/
def Above (N x : Nat) : Prop :=
  match c.pc with
  | .tryUnlock q | .writeCons q => x ≤ q
  | .consumed q => x ≤ c.syncProd ∧ (ummuQueueConsumed N q c.syncProd = true → x ≤ q)
  | .unlock => True
  | _ => x ≤ c.syncProd

theorem of_pc {α : Sort*} {pc : McPc} (f : McCpu → α) {c : McCpu} (h : c.pc = pc) : f c = f { c with pc } := by
  cases h
  rfl

end McCpu

def Marked (N : Nat) (s : Mcmdq) (p : Nat) : Prop := s.validMap (qIdx N p) = !qWrp N p

def PcOk (N : Nat) (s : Mcmdq) (start : Nat) (c : McCpu) : Prop :=
  match c.pc with
  | .exclWrite q => s.cons ≤ q ∧ q ≤ s.consReg
  | .write j => j < c.all.length
  | .lock => c.sync = true
  | .mark p => c.sprod ≤ p ∧ p < c.eprod
  | .clear => s.ownerProd = c.sprod
  | .poll p e => (s.ownerProd = c.sprod ∧ s.prodReg = c.sprod ∧ e = start ∧ c.eprod ≤ e) ∧
      c.sprod ≤ p ∧ p < e ∧ ∀ q, c.sprod ≤ q → q < p → Marked N s q
  | .publish e => (s.ownerProd = c.sprod ∧ s.prodReg = c.sprod ∧ e = start ∧ c.eprod ≤ e) ∧
      ∀ q, c.sprod ≤ q → q < e → Marked N s q
  | .tell e => (s.ownerProd = c.sprod ∧ s.prodReg = e ∧ e = start ∧ c.eprod ≤ e) ∧ e ≤ c.sprod + N
  | .consumed q | .tryUnlock q | .writeCons q => q ≤ s.consReg
  | _ => True

structure CpuOk (N : Nat) (s : Mcmdq) (start : Nat) (c : McCpu) : Prop where
  pc : PcOk N s start c
  some : c.pc ≠ .idle → 0 < c.all.length
  sync : c.holds = true → c.sync = true
  range : c.reserved = true → c.eprod ≤ s.prod ∧
    ∀ j, j < c.all.length → s.issued.flatten[c.sprod + j]? = c.all[j]?
  unmarked : c.reserved = true → ∀ p, c.markFrom ≤ p → p < c.eprod → s.prodReg ≤ p ∧ ¬ Marked N s p
  marked : c.reserved = true → ∀ p, c.sprod ≤ p → p < c.markFrom → p < s.prodReg ∨ Marked N s p
  written : c.reserved = true → ∀ p, c.markFrom ≤ p → p < c.writtenTo →
    s.entries (qIdx N p) = s.issued.flatten[p]?
  gathers : c.gathers = true → c.sprod = start ∧ s.owned = true

theorem CpuOk.at_pc {N start : Nat} {s : Mcmdq} {c : McCpu} {pc : McPc} (h : CpuOk N s start c)
    (hc : c.pc = pc) : PcOk N s start { c with pc } := by
  rw [← McCpu.of_pc (PcOk N s start) hc]
  exact h.pc

structure QueueOk (N : Nat) (s : Mcmdq) (start : Nat) : Prop where
  cons_le : s.cons ≤ s.consReg
  consReg_le : s.consReg ≤ s.prodReg
  prodReg_le : s.prodReg ≤ start
  start_le : start ≤ s.prod
  prod_le : s.prod ≤ s.cons + N
  issued : s.issued.flatten.length = s.prod
  consumed : s.consumed = (s.issued.flatten.take s.consReg).map some
  free : ∀ p, s.prod ≤ p → p < s.prodReg + N → ¬ Marked N s p
  full : ∀ p, s.consReg ≤ p → p < s.prod → (p < s.prodReg ∨ Marked N s p) →
    s.entries (qIdx N p) = s.issued.flatten[p]?
  closed : s.owned = false → start = s.prod

def LockOk (lock : McLock) (cpus : Nat → McCpu) : Prop :=
  match lock with
  | .exclusive => (∀ i, (cpus i).holds = false) ∧ ∀ i j, (cpus i).excl = true → (cpus j).excl = true → i = j
  | .shared n => (∀ i, (cpus i).excl = false) ∧
      ∃ S : Finset Nat, S.card = n ∧ ∀ i, i ∈ S ↔ (cpus i).holds = true

structure McInv (N : Nat) (s : Mcmdq) (start : Nat) : Prop where
  queue : QueueOk N s start
  cpu : ∀ i, CpuOk N s start (s.cpus i)
  apart : ∀ i j, i ≠ j → (s.cpus i).reserved = true → (s.cpus j).reserved = true →
    (s.cpus i).eprod ≤ (s.cpus j).sprod ∨ (s.cpus j).eprod ≤ (s.cpus i).sprod
  lock : LockOk s.lock s.cpus
  above : ∀ i, (s.cpus i).holds = true → (s.cpus i).Above N s.cons
  writer : ∀ i j x, i ≠ j → (s.cpus j).pc = .writeCons x → (s.cpus i).holds = true →
    (s.cpus i).Above N x ∧ ∀ y, (s.cpus i).pc ≠ .writeCons y
  quiet : (∀ i, (s.cpus i).publishes = false) → s.ownerProd = start ∧ s.prodReg = start

/-! ## Steps of one CPU -/

theorem LockOk.update {lock : McLock} {cpus : Nat → McCpu} {i : Nat} {c : McCpu} (h : LockOk lock cpus)
    (hh : c.holds = (cpus i).holds) (he : c.excl = (cpus i).excl) :
    LockOk lock (Function.update cpus i c) := by
  have hholds : ∀ j, (Function.update cpus i c j).holds = (cpus j).holds := by
    intro j
    by_cases hj : j = i
    · subst hj
      rw [Function.update_self, hh]
    · rw [Function.update_of_ne hj]
  have hexcl : ∀ j, (Function.update cpus i c j).excl = (cpus j).excl := by
    intro j
    by_cases hj : j = i
    · subst hj
      rw [Function.update_self, he]
    · rw [Function.update_of_ne hj]
  unfold LockOk at h ⊢
  simp only [hholds, hexcl]
  exact h

variable {N start start' i : Nat} {s s' : Mcmdq} {c : McCpu}

theorem McInv.quiet_of (h : McInv N s start) (hi : (s.cpus i).publishes = false)
    (hothers : ∀ j, j ≠ i → (s.cpus j).publishes = false) : s.ownerProd = start ∧ s.prodReg = start := by
  refine h.quiet fun j => ?_
  by_cases hj : j = i
  · rw [hj]
    exact hi
  · exact hothers j hj

theorem McCpu.above_of_pc {x : Nat} {pc : McPc} (hc : c.pc = pc) (hh : McCpu.holds { c with pc })
    (ha : c.holds → c.Above N x) : McCpu.Above { c with pc } N x := by
  rw [← McCpu.of_pc McCpu.holds hc] at hh
  rw [← McCpu.of_pc (McCpu.Above · N x) hc]
  exact ha hh

theorem McInv.update (h : McInv N s start) (hc : s'.cpus = Function.update s.cpus i c)
    (queue : QueueOk N s' start') (own : CpuOk N s' start' c)
    (others : ∀ j, j ≠ i → CpuOk N s' start' (s.cpus j))
    (hapart : c.reserved →
      (s.cpus i).reserved ∧ c.sprod = (s.cpus i).sprod ∧ c.eprod = (s.cpus i).eprod ∨
      s.prod ≤ c.sprod)
    (hlock : LockOk s'.lock s'.cpus)
    (habove : c.holds → ∀ x, x ≤ s.consReg → ((s.cpus i).holds → (s.cpus i).Above N x) →
      c.Above N x)
    (hcons : ∀ j, j ≠ i → (s.cpus j).holds → (s.cpus j).Above N s.cons → (s.cpus j).Above N s'.cons)
    (hown : c.holds → c.Above N s.cons → c.Above N s'.cons)
    (hwriter : ∀ x, c.pc = .writeCons x → ∀ j, j ≠ i → (s.cpus j).holds = false)
    (hquiet : (∀ j, j ≠ i → (s.cpus j).publishes = false) → c.publishes = false →
      s'.ownerProd = start' ∧ s'.prodReg = start') : McInv N s' start' := by
  have hself : s'.cpus i = c := by rw [hc, Function.update_self]
  have hother : ∀ j, j ≠ i → s'.cpus j = s.cpus j := fun j hj => by rw [hc, Function.update_of_ne hj]
  have hsep : c.reserved = true → ∀ j, j ≠ i → (s.cpus j).reserved = true →
      c.eprod ≤ (s.cpus j).sprod ∨ (s.cpus j).eprod ≤ c.sprod := by
    intro hr j hj hrj
    rcases hapart hr with ⟨hri, hs, he⟩ | hs
    · rw [hs, he]
      exact h.apart i j hj.symm hri hrj
    · have := ((h.cpu j).range hrj).1
      omega
  refine ⟨queue, fun j => ?_, fun j k hjk hrj hrk => ?_, hlock, fun j hj => ?_,
    fun j k x hjk hk hj => ?_, fun hq => ?_⟩
  · by_cases hj : j = i
    · rw [hj, hself]
      exact own
    · rw [hother j hj]
      exact others j hj
  · by_cases hj : j = i
    · rw [hj, hself] at hrj ⊢
      have hk : k ≠ i := fun hk => hjk (hj.trans hk.symm)
      rw [hother k hk] at hrk ⊢
      exact hsep hrj k hk hrk
    rw [hother j hj] at hrj ⊢
    by_cases hk : k = i
    · rw [hk, hself] at hrk ⊢
      exact (hsep hrk j hj hrj).symm
    · rw [hother k hk] at hrk ⊢
      exact h.apart j k hjk hrj hrk
  · by_cases hji : j = i
    · rw [hji, hself] at hj ⊢
      exact hown hj (habove hj _ h.queue.cons_le fun hh => h.above i hh)
    · rw [hother j hji] at hj ⊢
      exact hcons j hji hj (h.above j hj)
  · by_cases hki : k = i
    · rw [hki, hself] at hk
      have hji : j ≠ i := fun hji => hjk (hji.trans hki.symm)
      rw [hother j hji] at hj
      rw [hwriter x hk j hji] at hj
      cases hj
    rw [hother k hki] at hk
    by_cases hji : j = i
    · rw [hji, hself] at hj ⊢
      have hx : x ≤ s.consReg := (h.cpu k).at_pc hk
      refine ⟨habove hj x hx fun hh => (h.writer i k x (fun e => hki e.symm) hk hh).1, fun y hy => ?_⟩
      have hholds := hwriter y hy k hki
      unfold McCpu.holds at hholds
      rw [hk] at hholds
      cases hholds
    · rw [hother j hji] at hj ⊢
      exact h.writer j k x hjk hk hj
  · refine hquiet (fun j hj => ?_) ?_
    · have := hq j
      rw [hother j hj] at this
      exact this
    · have := hq i
      rw [hself] at this
      exact this

end UbDkms.Ummu
