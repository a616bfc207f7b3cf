import UbDkms.Ubcore.TpidReuseInv

/-!
# The steps of the calls

A step of a call changes the entry it works on as `Steps` says, and no other entry; so
every entry stays in accord with the shares of all calls.
-/

namespace UbDkms.Ubcore

open Lib List ReusePc Option
open Function (update update_self update_of_ne)

def ReusePc.on (pc : ReusePc) (e : Nat) : List Share := if pc.entry = some e then pc.shares else []

def sharesOf (calls : List ReusePc) (e : Nat) (k : Share) : Nat :=
  total (fun pc => if k ∈ pc.on e then 1 else 0) calls

def ReuseNode.inTable (s : ReuseNode) (e : Nat) : Nat := if s.table (s.entries e).key = some e then 1 else 0

def ReuseNode.after (s : ReuseNode) (n : Nat) (r : ReuseNode × List ReusePc) : ReuseNode :=
  { r.1 with calls := s.calls.eraseIdx n ++ r.2 }

/-- A step as an entry sees it; `kept` is the promise that no failure leaves anything behind. -/
inductive Steps (kept : Prop) (x : ReuseEntry) (i : Nat) (l : List Share) (x' : ReuseEntry) (i' : Nat)
    (l' : List Share) : Prop where
  | stays (hx : x' = x) (hi : i' = i) (hl : l' = l)
  | moves (h : Moves x i l x' i' l')
  | leaks (hk : ¬ kept) (h : Leaks x i l x' i' l')

def Accord (kept : Prop) (x : ReuseEntry) (i : Nat) (t : Share → Nat) : Prop :=
  View x i t ∧ (kept → Kept x t)

structure Acc (kept : Prop) (s : ReuseNode) : Prop where
  accord : ∀ e, e < s.next → Accord kept (s.entries e) (s.inTable e) (sharesOf s.calls e)
  calls : ∀ pc ∈ s.calls, ∀ e, pc.entry = some e → e < s.next
  table : ∀ k e, s.table k = some e → e < s.next ∧ (s.entries e).key = k
  fault : s.fault = false

section Shares

variable {kept : Prop} {x x' : ReuseEntry} {i i' e n : Nat} {l l' : List Share} {t : Share → Nat} {pc : ReusePc}
  {calls : List ReusePc}

theorem Steps.same : Steps kept x i l x i l :=
  .stays rfl rfl rfl

theorem Accord.steps (h : Accord kept x i (withShares t l)) (hs : Steps kept x i l x' i' l') (hi : i ≤ 1)
    (ho : Others t) : Accord kept x' i' (withShares t l') := by
  cases hs with
  | stays hx hi' hl =>
    subst hx hi' hl
    exact h
  | moves hm => exact ⟨h.1.moves ho hm hi, fun hk => (h.2 hk).moves ho h.1 hm⟩
  | leaks hk hm => exact ⟨h.1.holder ho (.inr hm), fun hk' => absurd hk' hk⟩

theorem ReusePc.owner {k : Share} (hr : k ≠ .ref) (hc : k ≠ .count) (h : k ∈ pc.shares) : .own ∈ pc.shares := by
  cases pc with
  | put e after => cases after <;> simp_all [shares]
  | rmv e why | modify e why => cases why <;> simp_all [shares]
  | _ => simp_all [shares]

theorem sharesOf_le_own {k : Share} (hr : k ≠ .ref) (hc : k ≠ .count) :
    sharesOf calls e k ≤ sharesOf calls e .own := by
  refine sum_le_sum fun pc _ => ?_
  unfold ReusePc.on
  split
  · split
    next h => rw [if_pos (owner hr hc h)]
    next => exact Nat.zero_le _
  · exact Nat.le_refl _

theorem others_sharesOf : Others (sharesOf calls e) := by
  constructor <;> exact sharesOf_le_own Share.noConfusion Share.noConfusion

theorem sharesOf_erase (hn : calls[n]? = some pc) :
    sharesOf calls e = withShares (sharesOf (calls.eraseIdx n) e) (pc.on e) := by
  funext k
  have := (Swap.eraseIdx hn).total (fun pc => if k ∈ pc.on e then 1 else 0)
  simp only [total_cons, total_nil, Nat.add_zero] at this
  exact this.symm

theorem sharesOf_append {news : List ReusePc} (hl : ∀ k, sharesOf news e k = if k ∈ l then 1 else 0) :
    sharesOf (calls ++ news) e = withShares (sharesOf calls e) l := by
  funext k
  unfold sharesOf withShares at *
  rw [total_append, hl]

theorem on_self (h : pc.entry = some e) : pc.on e = pc.shares := if_pos h

theorem on_other {d : Nat} (h : pc.entry = some e) (hd : d ≠ e) : pc.on d = [] :=
  if_neg fun h' => hd (some.inj (h'.symm.trans h))

theorem on_none (h : pc.entry = none) : pc.on e = [] := if_neg fun h' => by cases h.symm.trans h'

theorem sharesOf_nil (k : Share) : sharesOf [] e k = if k ∈ ([] : List Share) then 1 else 0 := rfl

theorem sharesOf_single (k : Share) : sharesOf [pc] e k = if k ∈ pc.on e then 1 else 0 := by
  unfold sharesOf
  rw [total_cons, total_nil, Nat.add_zero]

theorem fresh {key : Nat} : Accord kept { key } 0 (withShares (fun _ => 0) [.own, .out, .blank]) := by
  refine ⟨?_, fun _ => ?_⟩ <;> constructor <;> simp [withShares, ReuseState.code, Tpid.code]

end Shares

namespace Acc

variable {kept : Prop} {s s' : ReuseNode} {e n : Nat} {pc : ReusePc} {x' : ReuseEntry}

theorem setEntry_self : (s.setEntry e x').entries e = x' := by
  exact update_self ..

theorem setEntry_other {d : Nat} (h : d ≠ e) : (s.setEntry e x').entries d = s.entries d := by
  exact update_of_ne h ..

theorem inTable_le : s.inTable e ≤ 1 := by
  unfold ReuseNode.inTable
  split <;> omega

variable {news : List ReusePc}

theorem accord_step {l : List Share} {entries : ReuseEntry} {i : Nat} (h : Acc kept s)
    (hn : s.calls[n]? = some pc) (he : e < s.next) (hl : ∀ k, sharesOf news e k = if k ∈ l then 1 else 0)
    (hs : Steps kept (s.entries e) (s.inTable e) (pc.on e) entries i l) :
    Accord kept entries i (sharesOf (s.calls.eraseIdx n ++ news) e) := by
  rw [sharesOf_append hl]
  have ha := h.accord e he
  rw [sharesOf_erase hn] at ha
  exact ha.steps hs inTable_le others_sharesOf

theorem calls_step (h : Acc kept s)
    (hnews : ∀ q ∈ news, ∀ e, q.entry = some e → e < s.next) :
    ∀ q ∈ s.calls.eraseIdx n ++ news, ∀ e, q.entry = some e → e < s.next := by
  intro q hq e he
  rcases mem_append.mp hq with hq | hq
  · exact h.calls q (mem_of_mem_eraseIdx hq) e he
  · exact hnews q hq e he

theorem unbound (h : Acc kept s) (hn : s.calls[n]? = some pc) (hpc : pc.entry = none)
    (hnews : ∀ q ∈ news, q.entry = none) : Acc kept (s.after n (s, news)) := by
  refine ⟨fun e he => h.accord_step hn he (fun k => ?_) (.stays rfl rfl (on_none hpc).symm), ?_, h.table,
    h.fault⟩
  · unfold sharesOf total
    refine sum_eq_zero fun c hc => ?_
    obtain ⟨q, hq, rfl⟩ := mem_map.mp hc
    rw [on_none (hnews q hq)]
    rfl
  · refine h.calls_step fun q hq e he => ?_
    cases (hnews q hq).symm.trans he

theorem table_setEntry (h : Acc kept s) (hkey : x'.key = (s.entries e).key) :
    ∀ k d, s.table k = some d → d < s.next ∧ ((s.setEntry e x').entries d).key = k := by
  intro k d hd
  refine ⟨(h.table k d hd).1, ?_⟩
  rcases eq_or_ne d e with rfl | hde
  · rw [setEntry_self, hkey]
    exact (h.table k d hd).2
  · rw [setEntry_other hde]
    exact (h.table k d hd).2

theorem inTable_congr {d : Nat} (h : s'.table (s'.entries d).key = s.table (s.entries d).key) :
    s'.inTable d = s.inTable d := by
  refine if_congr ?_ rfl rfl
  rw [h]

theorem inTable_setEntry (hkey : x'.key = (s.entries e).key) (d : Nat) :
    (s.setEntry e x').inTable d = s.inTable d := by
  refine inTable_congr (congrArg s.table ?_)
  rcases eq_or_ne d e with rfl | hde
  · rw [setEntry_self, hkey]
  · rw [setEntry_other hde]

section

variable (h : Acc kept s) (hn : s.calls[n]? = some pc)
include h hn

theorem change (he : e < s.next) (hpc : ∀ d, d ≠ e → pc.on d = [])
    (o : Option ReusePc) (ho : ∀ q ∈ o, q.entry = some e) (x' : ReuseEntry) (hkey : x'.key = (s.entries e).key)
    (hs : Steps kept (s.entries e) (s.inTable e) (pc.on e) x' (s.inTable e) ((o.map shares).getD [])) :
    Acc kept (s.after n (s.setEntry e x', o.toList)) := by
  refine ⟨fun d hd => ?_, h.calls_step fun q hq d hd => ?_, h.table_setEntry hkey, h.fault⟩
  · have hin : (s.after n (s.setEntry e x', o.toList)).inTable d = s.inTable d := inTable_setEntry hkey d
    rw [hin]
    have hl : ∀ k, sharesOf o.toList d k =
        if k ∈ (if d = e then (o.map shares).getD [] else []) then 1 else 0 := by
      intro k
      cases o with
      | none =>
        rw [map_none, getD_none, ite_self]
        exact sharesOf_nil k
      | some q =>
        refine (sharesOf_single k).trans ?_
        rcases eq_or_ne d e with rfl | hde
        · rw [if_pos rfl, on_self (ho q rfl)]
          rfl
        · rw [if_neg hde, on_other (ho q rfl) hde]
    refine h.accord_step hn hd hl ?_
    rcases eq_or_ne d e with rfl | hde
    · rw [if_pos rfl]
      have hx : (s.after n (s.setEntry d x', o.toList)).entries d = x' := setEntry_self
      rw [hx]
      exact hs
    · rw [if_neg hde, hpc d hde]
      exact .stays (setEntry_other hde) rfl rfl
  · cases some.inj ((ho q (mem_toList.mp hq)).symm.trans hd)
    exact he

theorem lt_next (hpc : pc.entry = some e) : e < s.next :=
  h.calls pc (mem_of_getElem? hn) e hpc

theorem bound (hpc : pc.entry = some e) (o : Option ReusePc)
    (ho : ∀ q ∈ o, q.entry = some e) (x' : ReuseEntry) (hkey : x'.key = (s.entries e).key)
    (hs : Steps kept (s.entries e) (s.inTable e) pc.shares x' (s.inTable e) ((o.map shares).getD [])) :
    Acc kept (s.after n (s.setEntry e x', o.toList)) := by
  rw [← on_self hpc] at hs
  exact h.change hn (h.lt_next hn hpc) (fun d hd => on_other hpc hd) o ho x' hkey hs

end

theorem inTable_of_table (h : Acc kept s) {k : Nat} (hk : s.table k = some e) : s.inTable e = 1 := by
  refine if_pos ?_
  rw [(h.table k e hk).2]
  exact hk

variable {q : ReusePc}

theorem found {k : Nat} (h : Acc kept s) (hn : s.calls[n]? = some pc) (hpc : pc.entry = none)
    (hq : q.entry = some e) (href : q.shares = [.ref]) (hk : s.table k = some e) :
    Acc kept (s.after n (s.setEntry e { s.entries e with refCnt := (s.entries e).refCnt + 1 }, [q])) := by
  refine h.change hn (h.table k e hk).1 (fun d _ => on_none hpc) (some q) ?_ _ rfl ?_
  · rintro _ ⟨⟩
    exact hq
  · rw [on_none hpc, h.inTable_of_table hk]
    refine .moves (.refers ?_)
    rw [map_some, getD_some, href]
    exact .find

section

variable (h : Acc kept s) (hn : s.calls[n]? = some pc) (hpc : pc.entry = some e)
include h hn hpc

theorem goes {x' : ReuseEntry} (hq : q.entry = some e) (hkey : x'.key = (s.entries e).key)
    (hs : Steps kept (s.entries e) (s.inTable e) pc.shares x' (s.inTable e) q.shares) :
    Acc kept (s.after n (s.setEntry e x', [q])) := by
  refine h.bound hn hpc (some q) ?_ x' hkey hs
  rintro _ ⟨⟩
  exact hq

theorem leaves {x' : ReuseEntry}
    (hkey : x'.key = (s.entries e).key)
    (hs : Steps kept (s.entries e) (s.inTable e) pc.shares x' (s.inTable e) []) :
    Acc kept (s.after n (s.setEntry e x', [])) :=
  h.bound hn hpc none nofun x' hkey hs

theorem goes_same
    (hq : q.entry = some e)
    (hs : Steps kept (s.entries e) (s.inTable e) pc.shares (s.entries e) (s.inTable e) q.shares) :
    Acc kept (s.after n (s, [q])) := by
  have := h.goes hn hpc hq rfl hs
  unfold ReuseNode.setEntry at this
  rw [Function.update_eq_self] at this
  exact this

theorem view :
    View (s.entries e) (s.inTable e) (withShares (sharesOf (s.calls.eraseIdx n) e) pc.shares) := by
  have ha := (h.accord e (h.lt_next hn hpc)).1
  rw [sharesOf_erase hn, on_self hpc] at ha
  exact ha

theorem inTable_out
    (ho : .out ∈ pc.shares) : s.inTable e = 0 := by
  have hout := (h.view hn hpc).out
  rw [withShares_mem ho] at hout
  have := inTable_le (s := s) (e := e)
  omega

theorem collide {y : Nat}
    (hshares : pc.shares = [.own, .out, .blank]) (hq : q.entry = some y) (href : q.shares = [.ref])
    (hy : s.table (s.entries e).key = some y) :
    Acc kept (s.after n
      (s.setEntry y { s.entries y with refCnt := (s.entries y).refCnt + 1 }, [q, .freeNew e])) := by
  have hye : y ≠ e := by
    rintro rfl
    have := h.inTable_out hn hpc (by rw [hshares]; simp)
    rw [h.inTable_of_table hy] at this
    omega
  set x := { s.entries y with refCnt := (s.entries y).refCnt + 1 } with hx
  have hkey : x.key = (s.entries y).key := rfl
  refine ⟨fun d hd => ?_, h.calls_step fun q' hq' d hd => ?_, h.table_setEntry hkey, h.fault⟩
  · have hin : (s.after n (s.setEntry y x, [q, .freeNew e])).inTable d = s.inTable d := inTable_setEntry hkey d
    rw [hin]
    have hnew : (freeNew e).entry = some e := rfl
    have hl : ∀ k, sharesOf [q, .freeNew e] d k = if k ∈ q.on d ++ (freeNew e).on d then 1 else 0 := by
      intro k
      unfold sharesOf
      rw [total_cons, total_cons, total_nil]
      rcases eq_or_ne d y with rfl | hdy
      · rw [on_other hnew hye, append_nil]
        rfl
      · rw [on_other hq hdy, nil_append]
        exact Nat.zero_add _
    refine h.accord_step hn hd hl ?_
    rcases eq_or_ne d y with rfl | hdy
    · have hent : (s.after n (s.setEntry d x, [q, .freeNew e])).entries d = x := setEntry_self
      rw [hent, on_other hpc hye, on_self hq, href, on_other hnew hye, h.inTable_of_table hy]
      exact .moves (.refers .find)
    refine .stays (setEntry_other hdy) rfl ?_
    rw [on_other hq hdy, nil_append]
    unfold ReusePc.on
    rw [hpc, hshares]
    rfl
  · rcases mem_cons.mp hq' with rfl | hq'
    · cases some.inj (hq.symm.trans hd)
      exact (h.table _ y hy).1
    cases mem_singleton.mp hq'
    cases hd
    exact h.lt_next hn hpc

theorem added
    (hshares : pc.shares = [.own, .out, .blank]) (hq : q.entry = some e)
    (hfill : q.shares = [.ref, .own, .listed, .blank]) (hnone : s.table (s.entries e).key = none) :
    Acc kept (s.after n ({ s.setEntry e { s.entries e with refCnt := (s.entries e).refCnt + 1 } with
      table := update s.table (s.entries e).key (some e) }, [q])) := by
  set x := { s.entries e with refCnt := (s.entries e).refCnt + 1 } with hx
  have hkey : x.key = (s.entries e).key := rfl
  have hent : (s.setEntry e x).entries e = x := setEntry_self
  refine ⟨fun d hd => h.accord_step hn hd sharesOf_single ?_, h.calls_step fun q' hq' d hd => ?_, fun k d hd => ?_,
    h.fault⟩
  · rcases eq_or_ne d e with rfl | hde
    · have hin : s.inTable d = 0 := if_neg (by rw [hnone]; simp)
      have hin' : (s.after n ({ s.setEntry d x with
          table := update s.table (s.entries d).key (some d) }, [q])).inTable d = 1 := by
        refine if_pos ?_
        dsimp only [ReuseNode.after]
        rw [hent]
        exact update_self ..
      rw [hin, hin', on_self hpc, on_self hq, hshares, hfill]
      have := Makes.add (x := s.entries d)
      rw [← hx, ← hent] at this
      exact .moves (.makes this)
    refine .stays (setEntry_other hde) ?_ ?_
    · have hent : (s.setEntry e x).entries d = s.entries d := setEntry_other hde
      refine if_congr ?_ rfl rfl
      dsimp only [ReuseNode.after]
      rw [hent]
      rcases eq_or_ne (s.entries d).key (s.entries e).key with hk | hk
      · rw [hk, update_self, hnone]
        simp [Ne.symm hde]
      · rw [update_of_ne hk]
    · rw [on_other hpc hde, on_other hq hde]
  · cases mem_singleton.mp hq'
    cases some.inj (hq.symm.trans hd)
    exact h.lt_next hn hpc
  · have hd' : update s.table (s.entries e).key (some e) k = some d := hd
    rcases eq_or_ne k (s.entries e).key with rfl | hk
    · rw [update_self] at hd'
      cases some.inj hd'
      exact ⟨h.lt_next hn hpc, (congrArg ReuseEntry.key hent).trans hkey⟩
    · rw [update_of_ne hk] at hd'
      exact h.table_setEntry hkey k d hd'

theorem removed
    (hq : q.entry = some e)
    (hs : Moves (s.entries e) (s.inTable e) pc.shares (s.entries e) 0 q.shares) :
    Acc kept (s.after n ({ s with
      table := if s.table (s.entries e).key = some e then update s.table (s.entries e).key none
        else s.table }, [q])) := by
  set table := if s.table (s.entries e).key = some e then update s.table (s.entries e).key none
        else s.table with htable
  have hsub : ∀ k d, table k = some d → s.table k = some d ∧ d ≠ e := by
    intro k d hd
    rw [htable] at hd
    split at hd
    next hin =>
      rcases eq_or_ne k (s.entries e).key with rfl | hk
      · rw [update_self] at hd
        cases hd
      rw [update_of_ne hk] at hd
      refine ⟨hd, ?_⟩
      rintro rfl
      exact hk (h.table k d hd).2.symm
    next hin =>
      refine ⟨hd, ?_⟩
      rintro rfl
      exact hin ((congrArg s.table (h.table k d hd).2).trans hd)
  have hother : ∀ k d, d ≠ e → s.table k = some d → table k = some d := by
    intro k d hde hd
    rw [htable]
    split
    next hin =>
      rw [update_of_ne ?_]
      · exact hd
      · rintro rfl
        exact hde (some.inj (hd.symm.trans hin))
    next => exact hd
  refine ⟨fun d hd => h.accord_step hn hd sharesOf_single ?_, h.calls_step fun q' hq' d hd => ?_, fun k d hd => ?_,
    h.fault⟩
  · rcases eq_or_ne d e with rfl | hde
    · have hin : (s.after n ({ s with table := table }, [q])).inTable d = 0 :=
        if_neg fun hd' => (hsub _ d hd').2 rfl
      rw [hin, on_self hpc, on_self hq]
      exact .moves hs
    refine .stays rfl ?_ ?_
    · exact if_congr ⟨fun hd' => (hsub _ d hd').1, hother _ d hde⟩ rfl rfl
    · rw [on_other hpc hde, on_other hq hde]
  · cases mem_singleton.mp hq'
    cases some.inj (hq.symm.trans hd)
    exact h.lt_next hn hpc
  · exact h.table k d (hsub k d hd).1

end

theorem alloc {key : Nat} (h : Acc kept s) (hn : s.calls[n]? = some pc) (hpc : pc.entry = none)
    (hq : q.entry = some s.next) (hshares : q.shares = [.own, .out, .blank]) :
    Acc kept (s.after n (s.newEntry key, [q])) := by
  have hold : ∀ d, d ≠ s.next → (s.newEntry key).entries d = s.entries d := fun d hd =>
    update_of_ne hd ..
  refine ⟨fun d hd => ?_, fun q' hq' d hd => ?_, fun k d hd => ?_, h.fault⟩
  · rcases eq_or_ne d s.next with rfl | hdn
    · have hent : (s.newEntry key).entries s.next = { key } := update_self ..
      have hin : (s.after n (s.newEntry key, [q])).inTable s.next = 0 :=
        if_neg fun hd' => absurd (h.table _ _ hd').1 (Nat.lt_irrefl _)
      have hnobody : sharesOf (s.calls.eraseIdx n) s.next = fun _ => 0 := by
        funext k
        refine sum_eq_zero fun c hc => ?_
        obtain ⟨q', hq', rfl⟩ := mem_map.mp hc
        refine if_neg ?_
        unfold ReusePc.on
        rw [if_neg fun he => Nat.lt_irrefl _ (h.calls q' (mem_of_mem_eraseIdx hq') _ he)]
        exact not_mem_nil
      rw [hin]
      dsimp only [ReuseNode.after]
      rw [hent, sharesOf_append sharesOf_single, hnobody, on_self hq, hshares]
      exact fresh
    · have hlt : d < s.next := Nat.lt_of_le_of_ne (Nat.lt_succ_iff.mp hd) hdn
      refine h.accord_step hn hlt sharesOf_single (.stays (hold d hdn) ?_ ?_)
      · exact inTable_congr (congrArg (fun x : ReuseEntry => s.table x.key) (hold d hdn))
      · rw [on_none hpc, on_other hq hdn]
  · rcases mem_append.mp hq' with hq' | hq'
    · exact Nat.lt_succ_of_lt (h.calls q' (mem_of_mem_eraseIdx hq') d hd)
    cases mem_singleton.mp hq'
    cases some.inj (hq.symm.trans hd)
    exact Nat.lt_succ_self _
  · obtain ⟨hlt, hkey⟩ := h.table k d hd
    exact ⟨Nat.lt_succ_of_lt hlt, (congrArg ReuseEntry.key (hold d (Nat.ne_of_lt hlt))).trans hkey⟩

end Acc

end UbDkms.Ubcore
