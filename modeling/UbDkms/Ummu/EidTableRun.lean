import UbDkms.Ummu.EidTable

/-!
# The EID tables of all devices agree

While an addition or a deletion goes over the devices, only the record of its EID, the validity
of its `os_meta` and the TECT entry of the tag change; `Mid` says how far it is. All devices have
the same entries in the same slots, so each of them picks the slot the first one picked.
-/

namespace UbDkms.Ummu.Eid

open Lib List Function
open Function (update update_self update_of_ne)

variable {c : Cfg} {s s₀ s' : Global} {m : OsMeta} {d d' : Dev} {x : EidInfo} {g e i k n tag : Nat} {bypass : Bool}
  {v mem : Bool}

namespace Dev

theorem calcKvIndex_some (h : d.calcKvIndex c e = some i) :
    i ∈ slots c d.camDepth e ∧ d.kv i = none := by
  refine ⟨mem_of_find?_eq_some h, ?_⟩
  simpa using List.find?_some h

theorem find_range_agree {p : Nat → Bool} {a b i j : Nat} (hi : (List.range a).find? p = some i)
    (hj : (List.range b).find? p = some j) : i = j := by
  rw [List.find?_range_eq_some] at hi hj
  rcases Nat.lt_trichotomy i j with h | h | h
  · have := hj.2.2 i h
    simp [hi.1] at this
  · exact h
  · have := hi.2.2 j h
    simp [hj.1] at this

theorem calcKvIndex_agree {j : Nat} (hkv : d.kv = d'.kv) (h : d.calcKvIndex c e = some i)
    (h' : d'.calcKvIndex c e = some j) : i = j := by
  rw [calcKvIndex, slots, List.find?_append] at h h'
  rw [hkv] at h
  cases hb : ((List.range c.bankNum).map fun id => c.hash e * c.bankNum + id).find?
      fun i => (d'.kv i).isNone with
  | some a =>
    rw [hb, Option.some_or] at h h'
    exact Option.some_inj.mp (h.symm.trans h')
  | none =>
    rw [hb, Option.none_or, List.find?_map, Option.map_eq_some_iff] at h h'
    obtain ⟨a, ha, rfl⟩ := h
    obtain ⟨b, hb, rfl⟩ := h'
    rw [find_range_agree ha hb]

theorem deleteKvtbl_createKvtable (h : d.kv i = none) :
    (d.createKvtable tag e i).deleteKvtbl i = d := by
  rw [createKvtable, deleteKvtbl]
  simp [h.symm]

end Dev

theorem writeTecte_spec (v : Bool) (h : s.Placed c tag ∨ mem) :
    (s.writeTecte c tag v mem).metas = s.metas ∧
      (s.writeTecte c tag v mem).tecte = update s.tecte tag v ∧
      (s.writeTecte c tag v mem).Placed c tag ∧
      ∀ t, s.Placed c t → (s.writeTecte c tag v mem).Placed c t := by
  unfold Global.writeTecte
  by_cases hp : s.Placed c tag
  · rw [if_pos hp]
    exact ⟨rfl, rfl, hp, fun t ht => ht⟩
  rw [if_neg hp, if_pos (h.resolve_left hp)]
  refine ⟨rfl, rfl, .inr (update_self ..), fun t ht => ht.imp id fun hl => ?_⟩
  show update s.l2 (tag / 2 ^ 8) true (t / 2 ^ 8) = true
  rw [update_apply]
  split
  · rfl
  · exact hl

namespace OsMeta

def counted (m : OsMeta) (e k : Nat) (v : Bool) : OsMeta :=
  { m with eids := onKey (fun x => some { x with refCnt := k }) e m.eids, valid := v }

def removed (m : OsMeta) (e : Nat) (v : Bool) : OsMeta :=
  { m with eids := onKey (fun _ => none) e m.eids, ref := m.ref - 1, valid := v }

def pushed (m : OsMeta) (e i : Nat) : OsMeta :=
  { m with eids := m.eids ++ [(e, ⟨i, 1⟩)], ref := m.ref + 1 }

def stays (m : OsMeta) (v : Bool) : Bool := if m.ref = 2 then false else v

theorem stays_stays : m.stays (m.stays v) = m.stays v := by
  unfold stays
  split <;> rfl

theorem lookup_counted (hn : (keys m.eids).Nodup) (hx : m.eids.lookup e = some x) :
    (m.counted e k v).eids.lookup e = some { x with refCnt := k } := by
  rw [counted, lookup_onKey _ hn, if_pos rfl, hx, Option.bind_some]

theorem lookup_pushed (hx : m.eids.lookup e = none) : (m.pushed e i).eids.lookup e = some ⟨i, 1⟩ := by
  rw [pushed, lookup_push, hx, if_pos rfl, Option.none_or]

theorem nodup_pushed (hn : (keys m.eids).Nodup) (hx : m.eids.lookup e = none) :
    (keys (m.pushed e i).eids).Nodup := keys_push hn hx

variable (hn : (keys m.eids).Nodup) (hx : m.eids.lookup e = some x)
include hn hx

theorem addEid_counted :
    (m.counted e k v).addEid e i mem = some (m.counted e (k + 1) v) := by
  rw [addEid, lookup_counted hn hx]
  dsimp only [counted]
  rw [onKey_onKey]

theorem delEid_counted :
    (m.counted e (k + 2) v).delEid e = some (m.counted e (k + 1) v) := by
  rw [delEid, lookup_counted hn hx]
  dsimp only [counted]
  rw [if_neg (by omega), onKey_onKey]
  rfl

theorem delEid_counted_one
    (hr : 2 ≤ m.ref) : (m.counted e 1 v).delEid e = some (m.removed e v) := by
  rw [delEid, lookup_counted hn hx]
  have hne : ¬(m.counted e 1 v).ref - 1 = 0 := by
    show ¬m.ref - 1 = 0
    omega
  show (if 1 - 1 ≤ 0 then if (m.counted e 1 v).ref - 1 = 0 then none else _ else _) = _
  rw [if_pos (by omega), if_neg hne]
  dsimp only [counted]
  rw [onKey_onKey]
  rfl

end OsMeta

/-- The state `s` in a section that began in `s₀`, with the record of `e` in the `os_meta` `m` of
`g` counting `k` devices. -/
structure Mid (c : Cfg) (s₀ : Global) (g e : Nat) (m : OsMeta) (k : Nat) (v : Bool) (s : Global) :
    Prop where
  metas : s.metas = update s₀.metas g (some (m.counted e k v))
  tecte : s.tecte = update s₀.tecte m.tag v
  here : s.Placed c m.tag
  placed : ∀ t, s₀.Placed c t → s.Placed c t

/-- The state `s` after a section that began in `s₀` and removed the record of `e`. -/
structure Left (c : Cfg) (s₀ : Global) (g e : Nat) (m : OsMeta) (v : Bool) (s : Global) : Prop where
  metas : s.metas = update s₀.metas g (some (m.removed e v))
  tecte : s.tecte = update s₀.tecte m.tag v
  placed : ∀ t, s₀.Placed c t → s.Placed c t

theorem markInvalid_spec (h : Mid c s₀ g e m k v s) (mem : Bool) :
    (markInvalid c s (m.counted e k v) mem).2 = m.counted e k (m.stays v) ∧
      Mid c s₀ g e m k v { (markInvalid c s (m.counted e k v) mem).1 with
        tecte := s.tecte } ∧
      (markInvalid c s (m.counted e k v) mem).1.tecte = update s₀.tecte m.tag (m.stays v) := by
  unfold markInvalid OsMeta.stays
  show (if m.ref = 2 then _ else _ : Global × OsMeta).2 = _ ∧
    Mid c s₀ g e m k v { (if m.ref = 2 then _ else _ : Global × OsMeta).1 with tecte := s.tecte } ∧
    (if m.ref = 2 then _ else _ : Global × OsMeta).1.tecte = _
  by_cases hr : m.ref = 2
  · obtain ⟨h1, h2, h3, h4⟩ := writeTecte_spec false (.inl h.here)
    simp only [if_pos hr]
    refine ⟨rfl, ⟨h1.trans h.metas, h.tecte, h3, fun t ht => h4 t (h.placed t ht)⟩, h2.trans ?_⟩
    rw [h.tecte]
    exact update_idem ..
  · simp only [if_neg hr]
    exact ⟨trivial, { h with }, h.tecte⟩

theorem Mid.del (h : Mid c s₀ g e m (k + 2) v s) (hn : (keys m.eids).Nodup)
    (hx : m.eids.lookup e = some x) (mem : Bool) (d : Dev) :
    Mid c s₀ g e m (k + 1) (m.stays v) (ummuDelEid c mem s d g e).1 ∧
      (ummuDelEid c mem s d g e).2 = d.deleteKvtbl x.kvIndex := by
  obtain ⟨h1, h2, h3⟩ := markInvalid_spec h mem
  have hm : s.metas g = some (m.counted e (k + 2) v) := by rw [h.metas, update_self]
  unfold ummuDelEid
  simp only [hm, OsMeta.lookup_counted hn hx, h1, OsMeta.delEid_counted hn hx]
  have hmetas := h2.metas
  exact ⟨⟨by rw [hmetas, update_idem], h3, h2.here, h2.placed⟩, trivial⟩

theorem Mid.delLast (h : Mid c s₀ g e m 1 v s) (hn : (keys m.eids).Nodup)
    (hx : m.eids.lookup e = some x) (hr : 2 ≤ m.ref) (mem : Bool) (d : Dev) :
    Left c s₀ g e m (m.stays v) (ummuDelEid c mem s d g e).1 ∧
      (ummuDelEid c mem s d g e).2 = d.deleteKvtbl x.kvIndex := by
  obtain ⟨h1, h2, h3⟩ := markInvalid_spec h mem
  have hm : s.metas g = some (m.counted e 1 v) := by rw [h.metas, update_self]
  unfold ummuDelEid
  simp only [hm, OsMeta.lookup_counted hn hx, h1, OsMeta.delEid_counted_one hn hx hr]
  have hmetas := h2.metas
  exact ⟨⟨by rw [hmetas, update_idem], h3, h2.placed⟩, trivial⟩

theorem Mid.delAll (ds : List Dev) (h : Mid c s₀ g e m (ds.length + 1) v s)
    (hn : (keys m.eids).Nodup) (hx : m.eids.lookup e = some x) (hr : 2 ≤ m.ref) (mem : Bool) (d : Dev) :
    Left c s₀ g e m (m.stays v) (delAll c mem g e s (d :: ds)).1 ∧
      (delAll c mem g e s (d :: ds)).2 = (d :: ds).map (·.deleteKvtbl x.kvIndex) := by
  induction ds generalizing s v d with
  | nil =>
    obtain ⟨h1, h2⟩ := h.delLast hn hx hr mem d
    exact ⟨h1, by rw [Eid.delAll, h2]; rfl⟩
  | cons d' ds ih =>
    obtain ⟨h1, h2⟩ := h.del hn hx mem d
    obtain ⟨h3, h4⟩ := ih h1 d'
    rw [OsMeta.stays_stays] at h3
    rw [Eid.delAll]
    exact ⟨h3, by rw [h2, h4]; rfl⟩

theorem Mid.add (h : Mid c s₀ g e m k true s) (hn : (keys m.eids).Nodup)
    (hx : m.eids.lookup e = some x) (hb : (bypass && (g == 0 || !c.hwBypass)) = false)
    (al : Alloc) (d : Dev) :
    (∃ j, d.calcKvIndex c e = some j ∧ (ummuAddEid c al s d g e bypass).1 = none ∧
        Mid c s₀ g e m (k + 1) true (ummuAddEid c al s d g e bypass).2.1 ∧
        (ummuAddEid c al s d g e bypass).2.2 = d.createKvtable m.tag e j) ∨
      ummuAddEid c al s d g e bypass = (some .erange, s, d) := by
  have hm : s.metas g = some (m.counted e k true) := by rw [h.metas, update_self]
  have hg : s.getOsMeta g al.tag = .ok (s, m.counted e k true) := by
    unfold Global.getOsMeta
    rw [hm]
  unfold ummuAddEid
  rw [hb]
  simp only [hg, Bool.false_eq_true, if_false]
  cases hj : d.calcKvIndex c e with
  | none => exact .inr rfl
  | some j =>
    refine .inl ⟨j, rfl, ?_⟩
    simp only [OsMeta.addEid_counted hn hx, markValid]
    refine ⟨trivial, ⟨?_, h.tecte, h.here, h.placed⟩, rfl⟩
    show update s.metas g _ = _
    rw [h.metas, update_idem]
    rfl

/-- The addition goes over the devices that are left, all with the entries `T`; an error takes it
back from the devices done. -/
theorem Mid.addAll {T : Nat → Option Entry} (ds₀ : List Dev) {ds : List Dev} {al : Nat → Alloc}
    (h : Mid c s₀ g e m ds₀.length true s) (hn : (keys m.eids).Nodup)
    (hx : m.eids.lookup e = some x) (hr : 2 ≤ m.ref)
    (hb : (bypass && (g == 0 || !c.hwBypass)) = false) (hne : ds₀ ≠ [])
    (hT : ∀ d ∈ ds₀ ++ ds, d.kv = T) (hi : ∀ d ∈ ds₀, d.calcKvIndex c e = some x.kvIndex)
    {r : Option Err × Global × List Dev}
    (he : r = addAll c al g e bypass s (ds₀.map (·.createKvtable m.tag e x.kvIndex)) ds) :
    (r.1 = none ∧ Mid c s₀ g e m (ds₀ ++ ds).length true r.2.1 ∧
        r.2.2 = (ds₀ ++ ds).map (·.createKvtable m.tag e x.kvIndex) ∧
        ∀ d ∈ ds₀ ++ ds, d.calcKvIndex c e = some x.kvIndex) ∨
      (r.1 ≠ none ∧ Left c s₀ g e m (m.stays true) r.2.1 ∧ r.2.2 = ds₀ ++ ds) := by
  induction ds generalizing ds₀ s with
  | nil =>
    subst he
    rw [append_nil]
    exact .inl ⟨rfl, h, rfl, hi⟩
  | cons d ds ih =>
    rw [Eid.addAll] at he
    rcases h.add hn hx hb (al (ds₀.map (·.createKvtable m.tag e x.kvIndex)).length) d with
      ⟨j, hj, h1, h2, h3⟩ | herr
    · obtain ⟨a, ha⟩ := exists_mem_of_ne_nil _ hne
      have hja : j = x.kvIndex := by
        refine Dev.calcKvIndex_agree ?_ hj (hi a ha)
        rw [hT d (by simp), hT a (by simp [ha])]
      subst hja
      simp only [h1, h3] at he
      have hmap : ds₀.map (·.createKvtable m.tag e x.kvIndex) ++ [d.createKvtable m.tag e x.kvIndex] =
          (ds₀ ++ [d]).map (·.createKvtable m.tag e x.kvIndex) := by simp
      rw [hmap] at he
      have hlen : (ds₀ ++ [d]).length = ds₀.length + 1 := by simp
      have := ih (ds₀ ++ [d]) (hlen ▸ h2) (by simp) (by simpa using hT)
        (by
          intro a ha
          rcases mem_append.mp ha with ha | ha
          · exact hi a ha
          · rw [mem_singleton.mp ha, hj]) he
      simpa using this
    simp only [herr] at he
    obtain ⟨a, as, rfl⟩ := exists_cons_of_ne_nil hne
    obtain ⟨h1, h2⟩ := Mid.delAll (as.map (·.createKvtable m.tag e x.kvIndex)) (by simpa using h) hn hx
      hr (al ((a :: as).map (·.createKvtable m.tag e x.kvIndex)).length).l2
      (a.createKvtable m.tag e x.kvIndex)
    subst he
    refine .inr ⟨by simp, h1, ?_⟩
    -- what was created is deleted again, so the devices are as they were
    have hback : ((a :: as).map (·.createKvtable m.tag e x.kvIndex)).map (·.deleteKvtbl x.kvIndex) =
        a :: as := by
      rw [map_map]
      refine (map_congr_left fun b hb => ?_).trans (map_id _)
      exact Dev.deleteKvtbl_createKvtable (Dev.calcKvIndex_some (hi b hb)).2
    exact congrArg (· ++ d :: ds) (h2.trans hback)

theorem add_first {al : Alloc} (hg : s.getOsMeta g al.tag = .ok (s₀, m))
    (hb : (bypass && (g == 0 || !c.hwBypass)) = false) (hx : m.eids.lookup e = none)
    (hv : m.valid → s₀.tecte m.tag ∧ s₀.Placed c m.tag) (hl : al.l2) (d : Dev) :
    (∃ j, d.calcKvIndex c e = some j ∧ (ummuAddEid c al s d g e bypass).1 = none ∧
        Mid c s₀ g e (m.pushed e j) 1 true (ummuAddEid c al s d g e bypass).2.1 ∧
        (ummuAddEid c al s d g e bypass).2.2 = d.createKvtable m.tag e j) ∨
      ∃ r, ummuAddEid c al s d g e bypass = (some r, s₀, d) := by
  unfold ummuAddEid
  rw [hb]
  simp only [hg, Bool.false_eq_true, if_false]
  cases hj : d.calcKvIndex c e with
  | none => exact .inr ⟨_, rfl⟩
  | some j =>
    have hadd : m.addEid e j al.info = if al.info then some (m.pushed e j) else none := by
      unfold OsMeta.addEid
      rw [hx]
      rfl
    have hone : { m.pushed e j with valid := true } = (m.pushed e j).counted e 1 true := by
      rw [OsMeta.counted, onKey_self (f := fun x => some { x with refCnt := 1 })
        (OsMeta.lookup_pushed hx) rfl]
    simp only [hadd]
    cases al.info with
    | false => exact .inr ⟨_, rfl⟩
    | true =>
      refine .inl ⟨j, rfl, rfl, ?_, rfl⟩
      show Mid c s₀ g e (m.pushed e j) 1 true { (markValid c s₀ (m.pushed e j) al.l2).1 with
        metas := update (markValid c s₀ (m.pushed e j) al.l2).1.metas g
          (some (markValid c s₀ (m.pushed e j) al.l2).2) }
      unfold markValid
      by_cases hval : m.valid = true
      · rw [if_pos (show (m.pushed e j).valid = true from hval)]
        obtain ⟨h1, h2⟩ := hv hval
        refine ⟨?_, ?_, h2, fun t ht => ht⟩
        · rw [← hone]
          rw [show { m.pushed e j with valid := true } = m.pushed e j by rw [← hval]; rfl]
        · exact (update_eq_self_iff.mpr h1.symm).symm
      rw [if_neg (show ¬(m.pushed e j).valid = true from hval)]
      obtain ⟨h1, h2, h3, h4⟩ := writeTecte_spec (c := c) (s := s₀) true
        (.inr hl)
      refine ⟨?_, h2, h3, h4⟩
      rw [h1, ← hone]

/-- What an `os_meta` satisfies outside the sections, with `n` devices. -/
structure MetaOk (n : Nat) (m : OsMeta) : Prop where
  nodup : (keys m.eids).Nodup
  ref : m.ref = 1 + m.eids.length
  valid : m.valid = !m.eids.isEmpty
  count : ∀ e x, m.eids.lookup e = some x → x.refCnt = n

structure Metas (c : Cfg) (n : Nat) (s : Global) : Prop where
  ok : ∀ g m, s.metas g = some m → MetaOk n m
  tags : ∀ g m g' m', s.metas g = some m → s.metas g' = some m' → m.tag = m'.tag → g = g'
  tecte : ∀ g m, s.metas g = some m → s.tecte m.tag = m.valid
  stray : ∀ t, s.tecte t = true → ∃ g m, s.metas g = some m ∧ m.tag = t
  placed : ∀ t, s.tecte t = true → s.Placed c t

namespace Metas

theorem congr (h : Metas c n s) (hm : s'.metas = s.metas) (ht : s'.tecte = s.tecte)
    (hp : ∀ t, s.Placed c t → s'.Placed c t) : Metas c n s' where
  ok := hm ▸ h.ok
  tags := hm ▸ h.tags
  tecte := ht ▸ hm ▸ h.tecte
  stray := ht ▸ hm ▸ h.stray
  placed t htt := hp t (h.placed t (ht ▸ htt))

theorem put (h : Metas c n s) (hok : MetaOk n m) (hold : ∀ a, s.metas g = some a → a.tag = m.tag)
    (hother : ∀ g' a, g' ≠ g → s.metas g' = some a → a.tag ≠ m.tag)
    (h1 : s'.metas = update s.metas g (some m))
    (h2 : s'.tecte = update s.tecte m.tag m.valid)
    (hp : ∀ t, s.Placed c t → s'.Placed c t) (hh : m.valid → s'.Placed c m.tag) :
    Metas c n s' := by
  have hget : ∀ g' a, s'.metas g' = some a → (g' = g ∧ a = m) ∨ (g' ≠ g ∧ s.metas g' = some a) := by
    intro g' a ha
    rw [h1, update_apply] at ha
    split at ha
    · next hg => exact .inl ⟨hg, (Option.some_inj.mp ha).symm⟩
    · next hg => exact .inr ⟨hg, ha⟩
  refine ⟨fun g' a ha => ?_, fun g' a g'' b ha hb hab => ?_, fun g' a ha => ?_, fun t ht => ?_, fun t ht => ?_⟩
  · rcases hget g' a ha with ⟨-, rfl⟩ | ⟨-, ha⟩
    · exact hok
    · exact h.ok g' a ha
  · rcases hget g' a ha with ⟨hg, rfl⟩ | ⟨hg, ha⟩ <;> rcases hget g'' b hb with ⟨hg', rfl⟩ | ⟨hg', hb⟩
    · rw [hg, hg']
    · exact absurd hab.symm (hother g'' b hg' hb)
    · exact absurd hab (hother g' a hg ha)
    · exact h.tags g' a g'' b ha hb hab
  · rw [h2, update_apply]
    rcases hget g' a ha with ⟨-, rfl⟩ | ⟨hg, ha⟩
    · rw [if_pos rfl]
    · rw [if_neg (hother g' a hg ha), h.tecte g' a ha]
  · by_cases htm : t = m.tag
    · exact ⟨g, m, by rw [h1, update_self], htm.symm⟩
    rw [h2, update_of_ne htm] at ht
    obtain ⟨g', a, ha, hat⟩ := h.stray t ht
    have hg : g' ≠ g := by
      rintro rfl
      exact htm (hat.symm.trans (hold a ha))
    exact ⟨g', a, by rw [h1, update_of_ne hg, ha], hat⟩
  · by_cases htm : t = m.tag
    · subst htm
      rw [h2, update_self] at ht
      exact hh ht
    · rw [h2, update_of_ne htm] at ht
      exact hp t (h.placed t ht)

theorem set {m' : OsMeta} (h : Metas c n s) (hm : s.metas g = some m) (hok : MetaOk n m')
    (htag : m'.tag = m.tag) (h1 : s'.metas = update s.metas g (some m'))
    (h2 : s'.tecte = update s.tecte m.tag m'.valid)
    (hp : ∀ t, s.Placed c t → s'.Placed c t) (hh : m'.valid → s'.Placed c m.tag) :
    Metas c n s' := by
  rw [← htag] at h2 hh
  refine h.put hok (fun a ha => ?_) (fun g' a hg ha heq => ?_) h1 h2 hp hh
  · rw [hm] at ha
    cases ha
    exact htag.symm
  · exact hg (h.tags g' a g m ha hm (heq.trans htag))

theorem push (h : Metas c n s) (hm : s.metas g = none)
    (hnew : ∀ g m, s.metas g = some m → m.tag ≠ tag) :
    Metas c n { s with metas := update s.metas g (some { tag := tag }) } := by
  have htag : s.tecte tag = false := by
    by_contra ht
    obtain ⟨g', a, ha, hat⟩ := h.stray tag (by simpa using ht)
    exact hnew g' a ha hat
  refine h.put (m := { tag := tag }) ⟨nodup_nil, rfl, rfl, nofun⟩ (fun a ha => ?_)
    (fun g' a _ ha => hnew g' a ha) rfl (update_eq_self_iff.mpr htag.symm).symm (fun t ht => ht)
    nofun
  rw [hm] at ha
  cases ha

end Metas

def held (s : Global) (g e : Nat) : Option (Nat × EidInfo) :=
  (s.metas g).bind fun m => (m.eids.lookup e).map (m.tag, ·)

theorem held_eq {y : Nat × EidInfo} :
    held s g e = some y ↔ ∃ m, s.metas g = some m ∧ m.tag = y.1 ∧ m.eids.lookup e = some y.2 := by
  rw [held, Option.bind_eq_some_iff]
  refine exists_congr fun m => and_congr_right fun _ => ?_
  rw [Option.map_eq_some_iff]
  constructor
  · rintro ⟨a, ha, rfl⟩
    exact ⟨rfl, ha⟩
  · rintro ⟨h1, h2⟩
    exact ⟨y.2, h2, by rw [h1]⟩

theorem held_set {m' : OsMeta} {o : Option EidInfo} (hm : s.metas g = some m)
    (h1 : s'.metas = update s.metas g (some m')) (htag : m'.tag = m.tag)
    (hl : ∀ e', m'.eids.lookup e' = if e' = e then o else m.eids.lookup e') (g' e' : Nat) :
    held s' g' e' = if g' = g ∧ e' = e then o.map (m.tag, ·) else held s g' e' := by
  rw [held, h1]
  by_cases hg : g' = g
  · subst hg
    rw [update_self, Option.bind_some, hl, htag, held, hm, Option.bind_some]
    by_cases he : e' = e
    · simp [he]
    · simp [he]
  · rw [update_of_ne hg, if_neg fun h => hg h.1, held]

structure Books (s : Global) (cached : List (Nat × Nat)) (T : Nat → Option Entry) : Prop where
  entry : ∀ j e t, T j = some ⟨e, t⟩ ↔ ∃ g x, held s g e = some (t, x) ∧ x.kvIndex = j
  listed : ∀ e g, (e, g) ∈ cached ↔ (held s g e).isSome
  once : (keys cached).Nodup

namespace Books

variable {cached : List (Nat × Nat)} {T : Nat → Option Entry}

variable (h : Books s cached T)
include h

theorem congr (hh : ∀ g e, held s' g e = held s g e) : Books s' cached T where
  entry j e t := by
    simp only [hh]
    exact h.entry j e t
  listed e g := by
    rw [hh]
    exact h.listed e g
  once := h.once

theorem held_none (he : e ∉ keys cached) (g : Nat) : held s g e = none := by
  cases hs : held s g e with
  | none => rfl
  | some y => exact absurd (mem_map_of_mem ((h.listed e g).mpr (by rw [hs]; rfl))) he

theorem lookup_none (he : e ∉ keys cached) (hm : s.metas g = some m) :
    m.eids.lookup e = none := by
  have := h.held_none he g
  rwa [held, hm, Option.bind_some, Option.map_eq_none_iff] at this

theorem owner {g' : Nat} {y z : Nat × EidInfo} (h1 : held s g e = some y)
    (h2 : held s g' e = some z) : g' = g := by
  have h1 := lookup_of_mem h.once ((h.listed e g).mpr (by rw [h1]; rfl))
  have h2 := lookup_of_mem h.once ((h.listed e g').mpr (by rw [h2]; rfl))
  exact Option.some_inj.mp (h2.symm.trans h1)

theorem add (he : e ∉ keys cached) (hT : T x.kvIndex = none)
    (hh : ∀ g' e', held s' g' e' = if g' = g ∧ e' = e then some (tag, x) else held s g' e') :
    Books s' (cached ++ [(e, g)]) (update T x.kvIndex (some ⟨e, tag⟩)) := by
  have hnone := h.held_none he
  refine ⟨fun j e' t => ?_, fun e' g' => ?_, ?_⟩
  · constructor
    · intro hj
      rw [update_apply] at hj
      split at hj
      · next hjx =>
        cases hj
        exact ⟨g, x, by rw [hh, if_pos ⟨rfl, rfl⟩], hjx.symm⟩
      obtain ⟨g', y, hy, hyj⟩ := (h.entry j e' t).mp hj
      refine ⟨g', y, ?_, hyj⟩
      rw [hh, if_neg, hy]
      rintro ⟨rfl, rfl⟩
      rw [hnone] at hy
      cases hy
    · rintro ⟨g', y, hy, rfl⟩
      rw [hh] at hy
      split at hy
      · next hge =>
        cases hy
        rw [update_self, hge.2]
      have hold := (h.entry y.kvIndex e' t).mpr ⟨g', y, hy, rfl⟩
      rw [update_of_ne _, hold]
      intro heq
      rw [heq, hT] at hold
      cases hold
  · rw [mem_append, mem_singleton, h.listed, hh]
    by_cases hge : g' = g ∧ e' = e
    · simp [hge]
    rw [if_neg hge]
    refine or_iff_left fun heq => hge ?_
    cases heq
    exact ⟨rfl, rfl⟩
  · exact keys_push h.once (lookup_eq_none.mpr he)

theorem del (hx : held s g e = some (tag, x))
    (hh : ∀ g' e', held s' g' e' = if g' = g ∧ e' = e then none else held s g' e') :
    Books s' (onKey (fun _ => none) e cached) (update T x.kvIndex none) := by
  have hslot : T x.kvIndex = some ⟨e, tag⟩ := (h.entry _ _ _).mpr ⟨g, x, hx, rfl⟩
  refine ⟨fun j e' t => ?_, fun e' g' => ?_, keys_onKey _ _ h.once⟩
  · constructor
    · intro hj
      rw [update_apply] at hj
      split at hj
      · cases hj
      next hne =>
      obtain ⟨g', y, hy, rfl⟩ := (h.entry j e' t).mp hj
      refine ⟨g', y, ?_, rfl⟩
      rw [hh, if_neg, hy]
      rintro ⟨rfl, rfl⟩
      rw [hx] at hy
      cases hy
      exact hne rfl
    · rintro ⟨g', y, hy, rfl⟩
      rw [hh] at hy
      split at hy
      · cases hy
      next hge =>
      have hold := (h.entry y.kvIndex e' t).mpr ⟨g', y, hy, rfl⟩
      rw [update_of_ne _, hold]
      -- a slot has one entry, so only the record of `e` under `g` has this one
      intro heq
      rw [heq, hslot] at hold
      cases hold
      exact hge ⟨h.owner hx hy, rfl⟩
  · rw [← lookup_iff (keys_onKey _ _ h.once), lookup_onKey _ h.once, hh]
    by_cases he : e' = e
    · subst he
      rw [if_pos rfl, Option.bind_fun_none]
      by_cases hg : g' = g
      · simp [hg]
      rw [if_neg fun hge => hg hge.1]
      refine iff_of_false (by simp) fun hs => hg ?_
      obtain ⟨y, hy⟩ := Option.isSome_iff_exists.mp hs
      exact h.owner hx hy
    · rw [if_neg he, if_neg fun hge => he hge.2, lookup_iff h.once, h.listed]

end Books

section Sections

variable {cached : List (Nat × Nat)} {T : Nat → Option Entry} {ds : List Dev} {al : Nat → Alloc}
  {bypass : Bool}

theorem getOsMeta_spec (hM : Metas c n s) (hB : Books s cached T) {a : Except Err Nat}
    (hnew : ∀ t, a = .ok t → ∀ g m, s.metas g = some m → m.tag ≠ t)
    (h : s.getOsMeta g a = .ok (s₀, m)) :
    Metas c n s₀ ∧ Books s₀ cached T ∧ s₀.tecte = s.tecte ∧ s₀.metas g = some m := by
  unfold Global.getOsMeta at h
  cases hm : s.metas g with
  | some m' =>
    rw [hm] at h
    cases h
    exact ⟨hM, hB, rfl, hm⟩
  | none =>
    rw [hm] at h
    cases a with
    | error r => cases h
    | ok t =>
      cases h
      refine ⟨hM.push hm (hnew t rfl), hB.congr fun g' e' => ?_, rfl, update_self ..⟩
      by_cases hg : g' = g
      · subst hg
        simp [held, hm]
      · simp [held, hg]

theorem removed_pushed (hok : MetaOk n m) (hx : m.eids.lookup e = none) :
    (m.pushed e i).removed e ((m.pushed e i).stays true) = m ∧ (m.pushed e i).stays true = m.valid := by
  have hv : (m.pushed e i).stays true = m.valid := by
    have href := hok.ref
    have hval := hok.valid
    show (if m.ref + 1 = 2 then false else true) = m.valid
    rw [hval]
    cases hl : m.eids with
    | nil =>
      rw [hl] at href
      rw [if_pos (by rw [href]; rfl)]
      rfl
    | cons y l =>
      rw [hl, length_cons] at href
      rw [if_neg (by omega)]
      rfl
  refine ⟨?_, hv⟩
  rw [hv]
  show (⟨m.tag, m.ref + 1 - 1, m.valid, onKey (fun _ => none) e (m.eids ++ [(e, ⟨i, 1⟩)])⟩ : OsMeta) = m
  rw [onKey_remove_push (lookup_eq_none.mp hx), Nat.add_sub_cancel]

/-- What a section of `logic_ummu_add_eid` does: nothing but a new `os_meta` without EIDs when it
fails, else it adds the EID everywhere in one slot. -/
theorem addAll_spec (hM : Metas c (d :: ds).length s) (hB : Books s cached T) (he : e ∉ keys cached)
    (hl : ∀ k, (al k).l2)
    (hnew : ∀ t, (al 0).tag = .ok t → ∀ g m, s.metas g = some m → m.tag ≠ t)
    (hT : ∀ a ∈ d :: ds, a.kv = T) {r : Option Err × Global × List Dev}
    (hr : r = addAll c al g e bypass s [] (d :: ds)) :
    ∃ s₀, Metas c (d :: ds).length s₀ ∧ Books s₀ cached T ∧ s₀.tecte = s.tecte ∧
      ((r.1 ≠ none ∧ r.2.2 = d :: ds ∧ r.2.1.metas = s₀.metas ∧ r.2.1.tecte = s₀.tecte ∧
          ∀ t, s₀.Placed c t → r.2.1.Placed c t) ∨
        (r.1 = none ∧ ∃ m i, s₀.metas g = some m ∧ T i = none ∧
          Mid c s₀ g e (m.pushed e i) (d :: ds).length true r.2.1 ∧
          r.2.2 = (d :: ds).map (·.createKvtable m.tag e i) ∧
          ∀ a ∈ d :: ds, i ∈ Dev.slots c a.camDepth e)) := by
  rw [addAll] at hr
  -- an error on the first device
  have hfail : ∀ s₀ r', ummuAddEid c (al 0) s d g e bypass = (some r', s₀, d) →
      r = (some r', s₀, d :: ds) := by
    intro s₀ r' h
    simpa [h, delAll] using hr
  cases hb : bypass && (g == 0 || !c.hwBypass) with
  | true =>
    have := hfail s .eopnotsupp (by rw [ummuAddEid, hb]; rfl)
    subst this
    exact ⟨s, hM, hB, rfl, .inl ⟨by simp, rfl, rfl, rfl, fun t ht => ht⟩⟩
  | false =>
    cases hg : s.getOsMeta g (al 0).tag with
    | error r' =>
      have := hfail s r' (by unfold ummuAddEid; rw [hb, hg]; rfl)
      subst this
      exact ⟨s, hM, hB, rfl, .inl ⟨by simp, rfl, rfl, rfl, fun t ht => ht⟩⟩
    | ok q =>
      obtain ⟨s₀, m⟩ := q
      obtain ⟨hM₀, hB₀, ht₀, hm⟩ := getOsMeta_spec hM hB hnew hg
      have hok := hM₀.ok g m hm
      have hx := hB₀.lookup_none he hm
      have hv : m.valid → s₀.tecte m.tag ∧ s₀.Placed c m.tag := fun hv =>
        have h1 := (hM₀.tecte g m hm).trans hv
        ⟨h1, hM₀.placed _ h1⟩
      refine ⟨s₀, hM₀, hB₀, ht₀, ?_⟩
      rcases add_first hg hb hx hv (hl 0) d with ⟨j, hj, h1, h2, h3⟩ | ⟨r', h⟩
      · simp only [length_nil, h1, h3, nil_append] at hr
        have hall := Mid.addAll [d] h2 (OsMeta.nodup_pushed hok.nodup hx)
          (OsMeta.lookup_pushed hx) (show 2 ≤ m.ref + 1 by have := hok.ref; omega) hb (by simp) hT
          (by simpa using hj) hr
        rcases hall with ⟨hn, hmid, hds, hidx⟩ | ⟨hn, hleft, hds⟩
        · refine .inr ⟨hn, m, j, hm, ?_, hmid, hds, fun a ha => (Dev.calcKvIndex_some (hidx a ha)).1⟩
          rw [← hT d mem_cons_self]
          exact (Dev.calcKvIndex_some hj).2
        obtain ⟨hrem, hst⟩ := removed_pushed hok hx
        refine .inl ⟨hn, hds, ?_, ?_, hleft.placed⟩
        · rw [hleft.metas, hrem]
          exact update_eq_self_iff.mpr hm.symm
        · rw [hleft.tecte, hst]
          exact update_eq_self_iff.mpr (hM₀.tecte g m hm).symm
      · have := hfail s₀ r' h
        subst this
        exact .inl ⟨by simp, rfl, rfl, rfl, fun t ht => ht⟩

theorem delAll_none (h : held s g e = none) : delAll c mem g e s ds = (s, ds) := by
  have hone : ∀ d, ummuDelEid c mem s d g e = (s, d) := by
    intro d
    unfold ummuDelEid
    cases hm : s.metas g with
    | none => rfl
    | some m =>
      rw [held, hm, Option.bind_some, Option.map_eq_none_iff] at h
      simp only [h]
  induction ds with
  | nil => rfl
  | cons d ds ih => rw [delAll, hone, ih]

theorem lookup_counted_pushed (hn : (keys m.eids).Nodup) (hx : m.eids.lookup e = none) (e' : Nat) :
    ((m.pushed e i).counted e n v).eids.lookup e' = if e' = e then some ⟨i, n⟩ else m.eids.lookup e' := by
  rw [OsMeta.counted, lookup_onKey _ (OsMeta.nodup_pushed hn hx), OsMeta.lookup_pushed hx]
  split
  · rfl
  · next hne => rw [OsMeta.pushed, lookup_push, if_neg hne, Option.or_none]

theorem MetaOk.pushed (hok : MetaOk n m) (hx : m.eids.lookup e = none) :
    MetaOk n ((m.pushed e i).counted e n true) := by
  have hlen : ((m.pushed e i).counted e n true).eids.length = m.eids.length + 1 := by
    rw [OsMeta.counted, length_onKey_some, OsMeta.pushed, length_append, length_singleton]
  refine ⟨?_, ?_, ?_, fun e' x h => ?_⟩
  · rw [OsMeta.counted, keys_onKey_some]
    exact OsMeta.nodup_pushed hok.nodup hx
  · rw [hlen]
    show m.ref + 1 = _
    rw [hok.ref, Nat.add_assoc]
  · show true = _
    rw [Bool.true_eq, Bool.not_eq_true', ← Bool.not_eq_true, List.isEmpty_iff]
    intro h
    rw [h] at hlen
    cases hlen
  · rw [lookup_counted_pushed hok.nodup hx] at h
    split at h
    · cases h
      rfl
    · exact hok.count e' x h

theorem MetaOk.valid_of_lookup (hok : MetaOk n m) (hx : m.eids.lookup e = some x) : m.valid := by
  rw [hok.valid, Bool.not_eq_true', ← Bool.not_eq_true, List.isEmpty_iff]
  intro h
  rw [h] at hx
  cases hx

theorem MetaOk.removed (hok : MetaOk n m) (hx : m.eids.lookup e = some x) :
    MetaOk n (m.removed e (m.stays m.valid)) := by
  have hlen : (m.removed e (m.stays m.valid)).eids.length + 1 = m.eids.length :=
    length_onKey_remove (mem_map_of_mem (mem_of_lookup hx))
  have href := hok.ref
  refine ⟨keys_onKey _ _ hok.nodup, ?_, ?_, fun e' y h => ?_⟩
  · show m.ref - 1 = _
    omega
  · show (if m.ref = 2 then false else m.valid) = _
    cases hl : (m.removed e (m.stays m.valid)).eids with
    | nil =>
      rw [hl, length_nil] at hlen
      rw [if_pos (by omega)]
      rfl
    | cons y l =>
      rw [hl, length_cons] at hlen
      rw [if_neg (by omega), hok.valid_of_lookup hx]
      rfl
  · rw [OsMeta.removed, lookup_onKey _ hok.nodup] at h
    split at h
    · rw [Option.bind_fun_none] at h
      cases h
    · exact hok.count e' y h

/-- What a section of `logic_ummu_del_eid` does to an EID that has a record. -/
theorem delAll_spec (mem : Bool) (hM : Metas c (d :: ds).length s) (hm : s.metas g = some m)
    (hx : m.eids.lookup e = some x) :
    Left c s g e m (m.stays m.valid) (delAll c mem g e s (d :: ds)).1 ∧
      (delAll c mem g e s (d :: ds)).2 = (d :: ds).map (·.deleteKvtbl x.kvIndex) := by
  have hok := hM.ok g m hm
  have hlen := length_pos_of_mem (mem_of_lookup hx)
  have htecte := hM.tecte g m hm
  have hself : m.counted e (d :: ds).length m.valid = m := by
    rw [OsMeta.counted, onKey_self hx (by rw [← hok.count e x hx])]
  refine Mid.delAll ds ⟨?_, ?_, ?_, fun t ht => ht⟩ hok.nodup hx (by have := hok.ref; omega) mem d
  · show s.metas = update s.metas g (some (m.counted e (d :: ds).length m.valid))
    rw [hself]
    exact (update_eq_self_iff.mpr hm.symm).symm
  · exact (update_eq_self_iff.mpr htecte.symm).symm
  · exact hM.placed _ (htecte.trans (hok.valid_of_lookup hx))

end Sections

namespace Logic

variable {s : Logic} {depths : List Nat} {T : Nat → Option Entry}

/-- No two additions of one EID race: it is still not cached when the addition has the lock. A
second level table can be allocated, `xa_alloc` gives an unused tag, and a deletion names the guid
of the EID. -/
def Alone (s : Logic) : EidAct → Prop
  | .begin _ _ => True
  | .add n al =>
    (∀ p, s.adds[n]? = some p → p.eid ∉ keys s.cached) ∧ (∀ k, (al k).l2 = true) ∧
      ∀ k t, (al k).tag = .ok t → ∀ g m, s.info.metas g = some m → m.tag ≠ t
  | .del g e _ => ∀ g', (e, g') ∈ s.cached → g' = g
  | .removeAll _ => True

structure Inv (c : Cfg) (depths : List Nat) (s : Logic) (T : Nat → Option Entry) : Prop where
  metas : Metas c s.devs.length s.info
  books : Books s.info s.cached T
  same : ∀ d ∈ s.devs, d.kv = T
  slot : ∀ i y, T i = some y → ∀ d ∈ s.devs, i ∈ Dev.slots c d.camDepth y.eid
  depths : s.devs.map (·.camDepth) = depths
  agent : s.adds ≠ [] → s.devs ≠ []

theorem held_init (depths : List Nat) (g e : Nat) : held (Logic.init depths).info g e = none := by
  show held ⟨update (fun _ => none) 0 (some { tag := 0 }), _, _⟩ g e = none
  by_cases hg : g = 0
  · simp [held, hg]
  · simp [held, hg]

theorem init_inv (c : Cfg) (depths : List Nat) : Inv c depths (.init depths) fun _ => none := by
  have hmetas : Metas c (Logic.init depths).devs.length (Logic.init depths).info := by
    refine Metas.push (s := { metas := fun _ => none }) ⟨?_, ?_, ?_, ?_, ?_⟩ rfl ?_
    all_goals simp
  refine ⟨hmetas, ⟨fun j e t => ?_, fun e g => ?_, nodup_nil⟩, ?_, ?_, ?_, ?_⟩
  · simp [held_init]
  · rw [held_init]
    exact iff_of_false not_mem_nil (by simp)
  · intro d hd
    obtain ⟨n, -, rfl⟩ := mem_map.mp hd
    rfl
  · intro i y h
    cases h
  · show (depths.map _).map _ = _
    simp [comp_def]
  · exact fun h => absurd rfl h

theorem Inv.addEid (h : Inv c depths s T) {p : Add} {al : Nat → Alloc} (hd : s.devs ≠ [])
    (he : p.eid ∉ keys s.cached) (hl : ∀ k, (al k).l2)
    (hnew : ∀ t, (al 0).tag = .ok t → ∀ g m, s.info.metas g = some m → m.tag ≠ t) :
    (∃ T', Inv c depths (s.addEid c p al).2 T') ∧
      ((s.addEid c p al).1 ≠ none → (s.addEid c p al).2.devs = s.devs ∧
        (s.addEid c p al).2.cached = s.cached ∧ (s.addEid c p al).2.info.tecte = s.info.tecte) := by
  obtain ⟨devs, info, cached, adds⟩ := s
  obtain ⟨d, ds, rfl⟩ := exists_cons_of_ne_nil hd
  unfold Logic.addEid
  dsimp only at he hnew ⊢
  generalize hr : addAll c al p.guid p.eid p.bypass info [] (d :: ds) = r
  obtain ⟨s₀, hM, hB, ht, ⟨hr, hds, hm, htec, hp⟩ | ⟨hr, m, i, hm, hi, hmid, hds, hslot⟩⟩ :=
    addAll_spec h.metas h.books he hl hnew h.same hr.symm
  · rw [if_neg hr, hds]
    refine ⟨⟨T, hM.congr hm htec hp, hB.congr fun g e => ?_, h.same, h.slot, h.depths, h.agent⟩,
      fun _ => ⟨rfl, rfl, htec.trans ht⟩⟩
    rw [held, hm, held]
  have hok := hM.ok p.guid m hm
  have hx := hB.lookup_none he hm
  refine ⟨⟨update T i (some ⟨p.eid, m.tag⟩), ?_⟩, fun h => absurd hr h⟩
  rw [if_pos hr, hds]
  refine ⟨?_, ?_, fun a ha => ?_, fun j y hj a ha => ?_, ?_, fun _ => by simp⟩
  · show Metas c ((d :: ds).map _).length r.2.1
    rw [length_map]
    exact hM.set hm (hok.pushed hx) rfl hmid.metas hmid.tecte hmid.placed fun _ => hmid.here
  · exact hB.add he hi
      (held_set hm hmid.metas rfl (lookup_counted_pushed hok.nodup hx))
  · obtain ⟨b, hb, rfl⟩ := mem_map.mp ha
    show update b.kv i _ = _
    rw [h.same b hb]
  · obtain ⟨b, hb, rfl⟩ := mem_map.mp ha
    rw [update_apply] at hj
    split at hj
    · next hji =>
      cases hj
      rw [hji]
      exact hslot b hb
    · exact h.slot j y hj b hb
  · rw [← h.depths]
    rw [map_map]
    rfl

theorem Inv.delEid (h : Inv c depths s T) {g e : Nat} (mem : Bool) (hd : s.devs ≠ [])
    (hg : ∀ g', (e, g') ∈ s.cached → g' = g) : ∃ T', Inv c depths (s.delEid c g e mem) T' := by
  obtain ⟨devs, info, cached, adds⟩ := s
  obtain ⟨d, ds, rfl⟩ := exists_cons_of_ne_nil hd
  unfold Logic.delEid
  dsimp only at hg ⊢
  cases hx : held info g e with
  | none =>
    have he : e ∉ keys cached := by
      intro he
      obtain ⟨⟨e', g'⟩, hmem, rfl⟩ := mem_map.mp he
      have := hg g' hmem
      subst this
      have := (h.books.listed e' g').mp hmem
      rw [hx] at this
      cases this
    rw [delAll_none hx, onKey_of_not_mem _ he]
    exact ⟨T, h⟩
  | some y =>
    obtain ⟨tag, x⟩ := y
    obtain ⟨m, hm, rfl, hl⟩ := held_eq.mp hx
    obtain ⟨hleft, hds⟩ := delAll_spec mem h.metas hm hl
    have hok := h.metas.ok g m hm
    refine ⟨update T x.kvIndex none, ?_⟩
    rw [hds]
    refine ⟨?_, ?_, fun a ha => ?_, fun j y hj a ha => ?_, ?_, fun _ => by simp⟩
    · show Metas c ((d :: ds).map _).length _
      rw [length_map]
      refine h.metas.set hm (hok.removed hl) rfl hleft.metas hleft.tecte hleft.placed fun _ => ?_
      exact hleft.placed _ (h.metas.placed _ ((h.metas.tecte g m hm).trans (hok.valid_of_lookup hl)))
    · refine h.books.del hx (held_set (o := none) hm hleft.metas rfl fun e' => ?_)
      rw [OsMeta.removed, lookup_onKey _ hok.nodup, Option.bind_fun_none]
    · obtain ⟨b, hb, rfl⟩ := mem_map.mp ha
      show update b.kv x.kvIndex _ = _
      rw [h.same b hb]
    · obtain ⟨b, hb, rfl⟩ := mem_map.mp ha
      rw [update_apply] at hj
      split at hj
      · cases hj
      · exact h.slot j y hj b hb
    · rw [← h.depths]
      rw [map_map]
      rfl

theorem removeAll_cons {e g : Nat} {l : List (Nat × Nat)} (hl : s.cached = (e, g) :: l) (mem : Bool) :
    s.removeAll c mem = (s.delEid c g e mem).removeAll c mem := by
  unfold Logic.removeAll Logic.delEid
  simp only [hl, onKey, if_true, foldl_cons]

theorem Inv.removeAll {l : List (Nat × Nat)} (hl : s.cached = l) (h : Inv c depths s T) (mem : Bool)
    (hd : s.devs ≠ []) : ∃ T', Inv c depths (s.removeAll c mem) T' := by
  induction l generalizing s T with
  | nil =>
    have hs : s.removeAll c mem = s := by
      obtain ⟨devs, info, cached, adds⟩ := s
      subst hl
      rfl
    rw [hs]
    exact ⟨T, h⟩
  | cons p l ih =>
    have hdel : (s.delEid c p.2 p.1 mem).cached = l := by
      unfold Logic.delEid
      simp only [hl, onKey, if_true]
    have hone : ∀ g', (p.1, g') ∈ s.cached → g' = p.2 := by
      intro g' hg'
      have h1 := lookup_of_mem h.books.once hg'
      rw [hl, lookup_cons_self] at h1
      exact (Option.some_inj.mp h1).symm
    obtain ⟨T', hT'⟩ := h.delEid mem hd hone
    rw [removeAll_cons hl]
    refine ih hdel hT' fun hnil => hd ?_
    have := hT'.depths
    rw [hnil, ← h.depths] at this
    simpa using this.symm

theorem Inv.act (h : Inv c depths s T) {a : EidAct} (ha : Alone s a) :
    ∃ T', Inv c depths (s.act c a) T' := by
  cases a with
  | begin p mem =>
    dsimp only [Logic.act]
    split
    · exact ⟨T, h⟩
    · next hne =>
      exact ⟨T, h.metas, h.books, h.same, h.slot, h.depths, fun _ hd => hne (.inl hd)⟩
  | add n al =>
    dsimp only [Logic.act]
    cases hp : s.adds[n]? with
    | none => exact ⟨T, h⟩
    | some p =>
      have hd : s.devs ≠ [] := h.agent fun hnil => by simp [hnil] at hp
      obtain ⟨T', hT'⟩ := (h.addEid hd (ha.1 p hp) ha.2.1 (ha.2.2 0)).1
      exact ⟨T', hT'.metas, hT'.books, hT'.same, hT'.slot, hT'.depths, fun _ => hT'.agent fun hnil => by
        have : s.adds = [] := hnil
        simp [this] at hp⟩
  | del g e mem =>
    dsimp only [Logic.act]
    split
    · exact ⟨T, h⟩
    · next hd => exact h.delEid mem hd ha
  | removeAll mem =>
    dsimp only [Logic.act]
    split
    · exact ⟨T, h⟩
    · next hd => exact h.removeAll rfl mem hd

/-- In every run the EID tables agree: every device has one entry for each cached EID, with the
tag of its guid and in a slot the device looks into, and no other entry; the TECT entry of a tag
is valid iff the tag has a cached EID; an addition that fails changes no table. -/
theorem eid_tables_agree {c : Cfg} (h : Reach Alone (Logic.act c) (.init depths) s) :
    s.devs.map (·.camDepth) = depths ∧
    (∀ d ∈ s.devs, ∀ e g, (e, g) ∈ s.cached → ∃ m i, s.info.metas g = some m ∧
      i ∈ Dev.slots c d.camDepth e ∧ d.kv i = some ⟨e, m.tag⟩ ∧
      ∀ j y, d.kv j = some y → y.eid = e → j = i) ∧
    (∀ d ∈ s.devs, ∀ i y, d.kv i = some y → y.eid ∈ keys s.cached) ∧
    (keys s.cached).Nodup ∧
    (∀ t, s.info.tecte t = true ↔
      ∃ e g m, (e, g) ∈ s.cached ∧ s.info.metas g = some m ∧ m.tag = t) ∧
    ∀ n al p, s.adds[n]? = some p → Alone s (.add n al) → (s.addEid c p al).1 ≠ none →
      (s.addEid c p al).2.devs = s.devs ∧ (s.addEid c p al).2.cached = s.cached ∧
        (s.addEid c p al).2.info.tecte = s.info.tecte := by
  have hinv : ∃ T, Inv c depths s T :=
    Reach.invariant (I := fun s => ∃ T, Inv c depths s T) ⟨_, init_inv c depths⟩
      (fun _ _ ⟨_, hT⟩ ha => hT.act ha) h
  obtain ⟨T, hI⟩ := hinv
  refine ⟨hI.depths, fun d hd e g heg => ?_, fun d hd i y hy => ?_, hI.books.once, fun t => ?_,
    fun n al p hp ha => ?_⟩
  · obtain ⟨z, hz⟩ := Option.isSome_iff_exists.mp ((hI.books.listed e g).mp heg)
    obtain ⟨m, hm, htag, hl⟩ := held_eq.mp hz
    have hT : T z.2.kvIndex = some ⟨e, m.tag⟩ := (hI.books.entry _ _ _).mpr ⟨g, z.2, by rw [hz, htag], rfl⟩
    refine ⟨m, z.2.kvIndex, hm, hI.slot _ _ hT d hd, by rw [hI.same d hd, hT], fun j y hy hye => ?_⟩
    rw [hI.same d hd] at hy
    obtain ⟨g', x, hx, rfl⟩ := (hI.books.entry j y.eid y.tag).mp hy
    rw [hye] at hx
    have := hI.books.owner hz hx
    subst this
    rw [hz] at hx
    cases hx
    rfl
  · rw [hI.same d hd] at hy
    obtain ⟨g, x, hx, -⟩ := (hI.books.entry i y.eid y.tag).mp hy
    exact mem_map_of_mem ((hI.books.listed y.eid g).mpr (by rw [hx]; rfl))
  · constructor
    · intro ht
      obtain ⟨g, m, hm, hmt⟩ := hI.metas.stray t ht
      have hok := hI.metas.ok g m hm
      have hval := hI.metas.tecte g m hm
      rw [hmt, ht, hok.valid] at hval
      cases hl : m.eids with
      | nil =>
        rw [hl] at hval
        cases hval
      | cons y l =>
        refine ⟨y.1, g, m, (hI.books.listed y.1 g).mpr ?_, hm, hmt⟩
        rw [held, hm, Option.bind_some, hl, lookup_cons_self]
        rfl
    · rintro ⟨e, g, m, heg, hm, rfl⟩
      obtain ⟨z, hz⟩ := Option.isSome_iff_exists.mp ((hI.books.listed e g).mp heg)
      obtain ⟨m', hm', -, hl⟩ := held_eq.mp hz
      rw [hm] at hm'
      cases hm'
      rw [hI.metas.tecte g m hm, (hI.metas.ok g m hm).valid_of_lookup hl]
  · have hd : s.devs ≠ [] := hI.agent fun hnil => by simp [hnil] at hp
    exact (hI.addEid hd (ha.1 p hp) ha.2.1 (ha.2.2 0)).2

/-- Every allocation succeeds, and `xa_alloc` gives the tag 1. -/
def tagOne : Nat → Alloc := fun _ => ⟨.ok 1, true, true⟩

def oneAdded : List EidAct := [.begin ⟨5, 9, false⟩ true, .add 0 tagOne]

theorem init_tags (depths : List Nat) {g : Nat} {m : OsMeta} (h : (Logic.init depths).info.metas g = some m) : m.tag = 0 := by
  change update (fun _ => none) 0 (some { tag := 0 }) g = some m at h
  rw [update_apply] at h
  split at h
  · cases h
    rfl
  · cases h

theorem oneAdded_along :
    Reach.Along Alone (Logic.act (kvCfg false false)) (.init [1, 0]) oneAdded := by
  refine ⟨trivial, ⟨fun p _ => not_mem_nil, fun _ => rfl, fun k t ht g m hm => ?_⟩, trivial⟩
  cases ht
  rw [init_tags [1, 0] hm]
  decide

theorem eid_tables_agree_twoDevices :
    (oneAdded.foldl (Logic.act (kvCfg false false)) (.init [1, 0])).cached = [(9, 5)] ∧
      (keys (oneAdded.foldl (Logic.act (kvCfg false false)) (.init [1, 0])).cached).Nodup :=
  ⟨by decide +kernel, (eid_tables_agree (Reach.init.along oneAdded_along)).2.2.2.1⟩

def racing : List EidAct :=
  [.begin ⟨5, 9, false⟩ true, .begin ⟨5, 9, false⟩ true, .add 0 tagOne, .add 0 tagOne]

/-- The EID is cached twice and has two entries in the table of the device. -/
theorem racing_twice :
    Reach (fun _ _ => True) (Logic.act (kvCfg false false)) (.init [1])
        (racing.foldl (Logic.act (kvCfg false false)) (.init [1])) ∧
      (racing.foldl (Logic.act (kvCfg false false)) (.init [1])).cached = [(9, 5), (9, 5)] ∧
      (racing.foldl (Logic.act (kvCfg false false)) (.init [1])).devs.map (fun d =>
        ((Dev.slots (kvCfg false false) d.camDepth 9).filterMap d.kv)) = [[⟨9, 1⟩, ⟨9, 1⟩]] :=
  ⟨Reach.foldl racing, by decide +kernel, by decide +kernel⟩

/-- In every run two entries of the EID tables, of one device or of two, have the same tag only
if their EIDs are cached for one guid: no guid comes to use the TECT entry of another. -/
theorem tags_isolate {c : Cfg} (h : Reach Alone (Logic.act c) (.init depths) s) {d d' : Dev}
    (hd : d ∈ s.devs) (hd' : d' ∈ s.devs) {i j : Nat} {y z : Entry} (hy : d.kv i = some y)
    (hz : d'.kv j = some z) (ht : y.tag = z.tag) : ∃ g, (y.eid, g) ∈ s.cached ∧ (z.eid, g) ∈ s.cached := by
  obtain ⟨T, hI⟩ : ∃ T, Inv c depths s T :=
    h.invariant (I := fun s => ∃ T, Inv c depths s T) ⟨_, init_inv c depths⟩ fun _ _ ⟨_, hT⟩ ha => hT.act ha
  rw [hI.same d hd] at hy
  rw [hI.same d' hd'] at hz
  obtain ⟨g, x, hx, -⟩ := (hI.books.entry i y.eid y.tag).mp hy
  obtain ⟨g', x', hx', -⟩ := (hI.books.entry j z.eid z.tag).mp hz
  obtain ⟨m, hm, hmt, -⟩ := held_eq.mp hx
  obtain ⟨m', hm', hmt', -⟩ := held_eq.mp hx'
  obtain rfl := hI.metas.tags g m g' m' hm hm' (by rw [hmt, hmt', ht])
  refine ⟨g, (hI.books.listed _ g).mpr ?_, (hI.books.listed _ g).mpr ?_⟩
  · rw [hx]
    rfl
  · rw [hx']
    rfl

theorem tags_isolate_twoDevices :
    ∃ g, (9, g) ∈ (oneAdded.foldl (Logic.act (kvCfg false false)) (.init [1, 0])).cached := by
  have hkv : ∀ d ∈ (oneAdded.foldl (Logic.act (kvCfg false false)) (.init [1, 0])).devs,
      d.kv 1592 = some ⟨9, 1⟩ := by
    decide +kernel
  obtain ⟨g, hg, -⟩ := tags_isolate (Reach.init.along oneAdded_along) mem_cons_self mem_cons_self
    (hkv _ mem_cons_self) (hkv _ mem_cons_self) rfl
  exact ⟨g, hg⟩

end Logic

end UbDkms.Ummu.Eid
