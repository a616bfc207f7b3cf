import UbDkms.Ummu.McmdqOwner

/-!
# Runs of the command queue

Any number of CPUs issue lists of commands, in any interleaving, and the hardware
consumes what is published. As long as no list is empty, the slots in use are apart,
`prod_reg` goes forward over slots that are written, and every command is consumed
once, in the order of the reservations.
-/

namespace UbDkms.Ummu

open Lib McCpu

variable {N start i : Nat} {msi : Bool} {s : Mcmdq} {late : Bool}

/-! ## Waiting for a `CMD_SYNC` -/

theorem McCpu.settled_of {c : McCpu} {pc : McPc} (h : c.pc = pc)
    (hs : settled { c with pc }) : c.settled := by
  obtain rfl := h
  exact hs

theorem McInv.syncLoad (h0 : 0 < N) (h : McInv N s start) (hc : (s.cpus i).pc = .syncLoad) :
    McInv N (s.goto i (.consumed s.cons)) start := by
  have hset : (s.cpus i).settled := settled_of hc rfl
  obtain ⟨hr, hholds, -⟩ := settled_attr hset
  refine h.hold hset rfl h.queue.cons_le (fun x _ ha => ?_) nofun
  have hle := h.above i hholds
  unfold McCpu.Above at hle ha
  rw [hc] at hle ha
  refine ⟨ha, fun hcons => ?_⟩
  -- the cached `cons` cannot have passed the command while its lock is held
  have hlt := (syncProd_lt ((h.cpu i).sync hholds)).2
  have hend := ((h.cpu i).range hr).1
  have hprod := h.queue.prod_le
  have hfalse := ummuQueueConsumed_false h0 hle (by omega)
  change ummuQueueConsumed N s.cons (s.cpus i).syncProd = true at hcons
  rw [hfalse] at hcons
  cases hcons

theorem McInv.consumed {q : Nat} (h : McInv N s start) (hc : (s.cpus i).pc = .consumed q) :
    McInv N (if ummuQueueConsumed N q (s.cpus i).syncProd then s.goto i (.tryUnlock q)
      else if late then s.goto i (.tryUnlock s.consReg) else s.goto i (.consumed s.consReg)) start := by
  have hset : (s.cpus i).settled := settled_of hc rfl
  have hpc := (h.cpu i).at_pc hc
  split
  · next hcons =>
    refine h.hold hset rfl hpc (fun x _ ha => ?_) nofun
    unfold McCpu.Above at ha
    rw [hc] at ha
    exact ha.2 hcons
  split
  · exact h.hold hset rfl le_rfl (fun x hx _ => hx) nofun
  · refine h.hold hset rfl le_rfl (fun x hx ha => ?_) nofun
    unfold McCpu.Above at ha
    rw [hc] at ha
    exact ⟨ha.1, fun _ => hx⟩

theorem McCpu.all_syncProd {c : McCpu} (h : c.sync) : c.all[c.cmds.length]? = some .sync := by
  unfold McCpu.all
  rw [h, if_pos rfl, List.getElem?_append_right (by rw [List.length_map]), List.length_map, Nat.sub_self]
  rfl

theorem McInv.pollMsi (h : McInv N s start) (hc : (s.cpus i).pc = .msi) :
    McInv N (if s.entries (qIdx N (s.cpus i).syncProd) = none then s.goto i (.tryUnlock ((s.cpus i).syncProd + 1))
      else if late then s.goto i (.tryUnlock s.consReg) else s) start := by
  have hset : (s.cpus i).settled := settled_of hc rfl
  obtain ⟨hr, hholds, -, -, -, hfrom, -⟩ := settled_attr hset
  have hok := h.cpu i
  have hsync := hok.sync hholds
  obtain ⟨hs1, hs2⟩ := syncProd_lt hsync
  split
  · next hnone =>
    refine h.hold hset rfl ?_ (fun x _ ha => ?_) nofun
    · -- the entry is there until the hardware has read it
      change (s.cpus i).syncProd + 1 ≤ s.consReg
      by_contra hlt
      obtain ⟨hend, hcmds⟩ := hok.range hr
      have hmarked := hok.marked hr (s.cpus i).syncProd hs1 (by rw [hfrom]; exact hs2)
      have hread := h.queue.full (s.cpus i).syncProd (by omega) (by omega) hmarked
      rw [hnone] at hread
      have hlen : (s.cpus i).cmds.length < (s.cpus i).all.length := by
        unfold syncProd eprod at hs2
        omega
      have := hcmds (s.cpus i).cmds.length hlen
      rw [all_syncProd hsync] at this
      exact absurd (hread.trans this) (by simp)
    · unfold McCpu.Above at ha
      rw [hc] at ha
      exact Nat.le_succ_of_le ha
  · split
    · exact h.hold hset rfl le_rfl (fun x hx _ => hx) nofun
    · exact h

theorem McInv.tryUnlock {q : Nat} (h : McInv N s start) (hc : (s.cpus i).pc = .tryUnlock q) :
    McInv N (if s.lock = .shared 1 then s.goto i (.writeCons q) else s.goto i .unlock) start := by
  have hset : (s.cpus i).settled := settled_of hc rfl
  obtain ⟨-, hholds, -⟩ := settled_attr hset
  have hpc := (h.cpu i).at_pc hc
  split
  · next hlock =>
    refine h.hold hset rfl hpc (fun x _ ha => ?_) fun x _ j hj => ?_
    · unfold McCpu.Above at ha
      rw [hc] at ha
      exact ha
    have hl := h.lock
    rw [hlock] at hl
    obtain ⟨-, S, hcard, hS⟩ := hl
    by_contra hne
    have hj' : j ∈ S := (hS j).mpr (by simpa using hne)
    have hi' : i ∈ S := (hS i).mpr hholds
    exact hj (Finset.card_le_one.mp hcard.le j hj' i hi')
  · exact h.hold hset rfl trivial (fun x _ _ => trivial) nofun

/-! ## All steps -/

theorem McInv.step (h64 : bitsPerLong ∣ N) (h0 : 0 < N) (h : McInv N s start) :
    ∃ start', McInv N (s.step N msi i late) start' := by
  have hQ := h.queue
  dsimp only [Mcmdq.step]
  cases hc : (s.cpus i).pc with
  | idle => exact ⟨start, h⟩
  | load => exact ⟨start, h.wait (by rw [hc]; simp) (of_pc reserved hc)
      (of_pc excl hc).symm rfl trivial⟩
  | reserve p q f =>
    have hidle : (s.cpus i).pc ≠ .idle := by
      rw [hc]
      simp
    have hres : (s.cpus i).reserved = false := of_pc reserved hc
    have hexcl : (s.cpus i).excl = false := of_pc excl hc
    dsimp only
    split
    · next hspace =>
      split
      · next hsame =>
        rw [Bool.and_eq_true, Bool.and_eq_true] at hsame
        exact ⟨start, h.reserve h0 hc hspace hsame.1.1 hsame.1.2 (eq_of_beq hsame.2) _ (by rw [← hc])⟩
      · exact ⟨start, h.wait hidle hres hexcl.symm rfl trivial⟩
    split
    · next hlock => exact ⟨start, h.exclLock hc hlock⟩
    · exact ⟨start, h.wait hidle hres hexcl.symm rfl trivial⟩
  | exclRead => exact ⟨start, h.wait (by rw [hc]; simp) (of_pc reserved hc)
      (of_pc excl hc).symm rfl ⟨hQ.cons_le, le_rfl⟩⟩
  | exclWrite q => exact ⟨start, h.exclWrite hc⟩
  | exclUnlock => exact ⟨start, h.exclUnlock hc⟩
  | spin =>
    dsimp only
    split
    · exact ⟨start, h⟩
    · exact ⟨start, h.wait (by rw [hc]; simp) (of_pc reserved hc)
        (of_pc excl hc).symm rfl trivial⟩
  | write j => exact ⟨start, h.write h0 hc⟩
  | lock =>
    cases hlock : s.lock with
    | shared n => exact ⟨start, h.lockShared h0 hc hlock⟩
    | exclusive => exact ⟨start, h⟩
  | mark p => exact ⟨start, h.mark h64 h0 hc⟩
  | waitOwner =>
    dsimp only
    split
    · next hsame => exact ⟨start, h.waitOwner hc hsame⟩
    · exact ⟨start, h⟩
  | clear => exact ⟨s.prod, h.clear h0 hc⟩
  | poll p e =>
    dsimp only
    split
    · next hseen => exact ⟨start, h.poll h64 h0 hc hseen⟩
    · exact ⟨start, h⟩
  | publish e => exact ⟨start, h.publish h0 hc⟩
  | tell e => exact ⟨start, h.tell hc⟩
  | syncLoad => exact ⟨start, h.syncLoad h0 hc⟩
  | consumed q => exact ⟨start, h.consumed hc⟩
  | msi => exact ⟨start, h.pollMsi hc⟩
  | tryUnlock q => exact ⟨start, h.tryUnlock hc⟩
  | writeCons q => exact ⟨start, h.writeCons hc⟩
  | unlock =>
    cases hlock : s.lock with
    | shared n => exact ⟨start, h.unlock hc hlock⟩
    | exclusive => exact ⟨start, h⟩

/-- A list that is issued has a command or a `CMD_SYNC`. -/
def McKept (_ : Mcmdq) : McAct → Prop
  | .call _ cmds sync => cmds ≠ [] ∨ sync = true
  | _ => True

theorem McInv.next {a : McAct} (h64 : bitsPerLong ∣ N) (h0 : 0 < N) (h : McInv N s start)
    (ha : McKept s a) : ∃ start', McInv N (s.next N msi a) start' := by
  cases a with
  | call i cmds sync =>
    dsimp only [Mcmdq.next]
    split
    · next hc => exact ⟨start, h.call hc ha⟩
    · exact ⟨start, h⟩
  | step i late => exact h.step h64 h0
  | consume => exact ⟨start, h.consume⟩

theorem McInv.init (N : Nat) : McInv N {} 0 := by
  refine ⟨⟨le_rfl, le_rfl, le_rfl, le_rfl, Nat.zero_le _, rfl, rfl, fun p _ hp hm => ?_,
    fun p _ hp => absurd hp (Nat.not_lt_zero p), fun _ => rfl⟩, fun i => ?_,
    fun i j _ hr => absurd hr Bool.false_ne_true, ⟨fun _ => rfl, ∅, Finset.card_empty, fun i => ?_⟩,
    fun i hh => absurd hh Bool.false_ne_true, nofun, fun _ => ⟨rfl, rfl⟩⟩
  · change p < 0 + N at hp
    have hwrp : qWrp N p = false := by
      unfold qWrp
      rw [Nat.div_eq_of_lt (by omega)]
      rfl
    unfold Marked at hm
    rw [hwrp] at hm
    cases hm
  · exact ⟨trivial, fun hh => absurd rfl hh, nofun,
      nofun, nofun,
      nofun, nofun,
      nofun⟩
  · exact iff_of_false (Finset.notMem_empty i) Bool.false_ne_true

theorem McInv.prodReg_le {a : McAct} (h : McInv N s start) : s.prodReg ≤ (s.next N msi a).prodReg := by
  cases a with
  | call i cmds sync =>
    dsimp only [Mcmdq.next]
    split <;> exact le_rfl
  | consume =>
    dsimp only [Mcmdq.next, Mcmdq.consume]
    split <;> exact le_rfl
  | step i late =>
    dsimp only [Mcmdq.next, Mcmdq.step]
    cases hc : (s.cpus i).pc with
    | publish e =>
      have hpc := (h.cpu i).at_pc hc
      obtain ⟨⟨-, -, hstart, -⟩, -⟩ := hpc
      rw [hstart]
      exact h.queue.prodReg_le
    | _ =>
      try dsimp only
      repeat' split
      all_goals exact le_rfl

/-! ## The queue in every run -/

theorem Mcmdq.step_other {j : Nat} (h : i ≠ j) : (s.step N msi j late).cpus i = s.cpus i := by
  have hne : ∀ c, Function.update s.cpus j c i = s.cpus i := fun _ => Function.update_of_ne h _ _
  dsimp only [Mcmdq.step]
  split
  all_goals
    try dsimp only
    repeat' split
    all_goals first | rfl | exact hne _

/-- CPU `i` marks a list that ends with the last of 32 slots. -/
def ToTheEnd (i : Nat) (s : Mcmdq) : Prop :=
  ∃ p, (s.cpus i).pc = .mark p ∧ p % 64 = 0 ∧ (s.cpus i).eprod % 64 = 32

/-- A round goes to the end of the word, where the wrap bit is the old one again. -/
theorem ToTheEnd.next (h : ToTheEnd i s) (a : McAct) : ToTheEnd i (s.next (2 ^ 5) msi a) := by
  obtain ⟨p, hc, hp, he⟩ := id h
  cases a with
  | call j cmds sync =>
    dsimp only [Mcmdq.next]
    split
    · next hj =>
      have hne : i ≠ j := by
        rintro rfl
        rw [hc] at hj
        cases hj
      exact ⟨p, by simpa [Function.update_of_ne hne] using ⟨hc, hp, he⟩⟩
    · exact h
  | consume =>
    dsimp only [Mcmdq.next, Mcmdq.consume]
    split <;> exact h
  | step j late =>
    by_cases hne : i = j
    · subst hne
      have hround : mapRound (2 ^ 5) p (s.cpus i).eprod = 64 := by
        unfold mapRound mapLimit qIdx bitsPerLong
        rw [if_neg (by omega)]
        omega
      have hpc : (s.cpus i).markPc (2 ^ 5) msi (p + 64) = .mark (p + 64) := by
        unfold markPc sameWord
        rw [if_neg (by simp only [decide_eq_true_eq]; omega)]
      have hstep : (s.step (2 ^ 5) msi i late).cpus i = { s.cpus i with pc := .mark (p + 64) } := by
        simp only [Mcmdq.step, hc, Mcmdq.goto, hround, hpc, Function.update_self]
      refine ⟨p + 64, ?_, by omega, ?_⟩ <;> simp only [Mcmdq.next, hstep]
      exact he
    · exact ⟨p, by simpa [Mcmdq.next, Mcmdq.step_other hne] using ⟨hc, hp, he⟩⟩

end UbDkms.Ummu
