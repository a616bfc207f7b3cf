import UbDkms.Mapt.Token

/-!
# The segment manager's list

What the lookups find in a sorted list of segments that lie apart, and how the
three updates of the list change it.
-/

namespace UbDkms.Mapt

open List

theorem SegsOk.ne_of_lt {s : SegInfo} : ¬s.last < s.startAddr := by
  have := s.le_last; omega

namespace SegsOk

variable {S : List SegInfo} {s t e : SegInfo} {left size : Nat}

theorem nodup (h : SegsOk S) : S.Nodup := by
  refine List.Pairwise.imp (fun {a b} hlt he => ?_) h.sorted
  subst he
  exact ne_of_lt hlt

theorem tail (h : SegsOk (s :: S)) : SegsOk S :=
  ⟨fun hm => h.aligned (.tail _ hm), fun hm => h.bound (.tail _ hm), (pairwise_cons.mp h.sorted).2⟩

/-- `mas_find` finds the first segment that ends at or after the index; the
others lie left of the index or right of that segment. -/
theorem masFind_some (h : SegsOk S) (hf : masFind S left = some e) :
    e ∈ S ∧ left ≤ e.last ∧ ∀ t ∈ S, t = e ∨ t.last < left ∨ e.last < t.startAddr := by
  unfold masFind at hf
  induction S with
  | nil => cases hf
  | cons x S ih =>
    rw [List.find?_cons] at hf
    have hx := pairwise_cons.mp h.sorted
    split at hf
    · next hd =>
      obtain rfl := Option.some.inj hf
      refine ⟨mem_cons_self, by simpa using hd, fun t ht => ?_⟩
      rcases mem_cons.mp ht with rfl | ht
      · exact .inl rfl
      · exact .inr (.inr (hx.1 t ht))
    next hd =>
    obtain ⟨hm, hl, hall⟩ := ih h.tail hf
    refine ⟨.tail _ hm, hl, fun t ht => ?_⟩
    rcases mem_cons.mp ht with rfl | ht
    · exact .inr (.inl (by simpa using hd))
    · exact hall t ht

theorem masFind_none (hf : masFind S left = none) : ∀ t ∈ S, t.last < left := by
  intro t ht
  simpa using List.find?_eq_none.mp hf t ht

theorem masFind_self (h : SegsOk S) (hs : s ∈ S) : masFind S s.startAddr = some s := by
  cases hf : masFind S s.startAddr with
  | none => exact absurd (masFind_none hf s hs) ne_of_lt
  | some e =>
    obtain ⟨he, hle, hall⟩ := h.masFind_some hf
    rcases hall s hs with rfl | hlt | hlt
    · rfl
    · exact absurd hlt ne_of_lt
    · omega

theorem apart_of_notExist (h : SegsOk S) (hb : left + size < 2 ^ 64)
    (hf : (ummuFindSeg left size S).2 = .notExist) :
    ∀ t ∈ S, t.last < left ∨ left + size < t.startAddr := by
  unfold ummuFindSeg at hf
  intro t ht
  cases hm : masFind S left with
  | none => exact .inl (masFind_none hm t ht)
  | some e =>
    rw [hm] at hf
    have hlt : left + size < e.startAddr := by
      simp only [ummuCompare] at hf
      split at hf
      · cases hf
      split at hf
      · next hlt => rwa [Nat.mod_eq_of_lt hb] at hlt
      · cases hf
    obtain ⟨-, -, hall⟩ := h.masFind_some hm
    have := e.le_last
    rcases hall t ht with rfl | h1 | h1
    · exact .inr hlt
    · exact .inl h1
    · exact .inr (by omega)

theorem of_match (h : SegsOk S) (hf : ummuFindSeg left size S = (some e, .isMatch)) :
    e ∈ S ∧ e.startAddr = left ∧ e.grantSize = size := by
  unfold ummuFindSeg at hf
  cases hm : masFind S left with
  | none => rw [hm] at hf; cases hf
  | some e' =>
    rw [hm] at hf
    obtain ⟨rfl, hc⟩ : e' = e ∧ ummuCompare left size e' = .isMatch := by simpa using hf
    refine ⟨(h.masFind_some hm).1, ?_⟩
    simp only [ummuCompare] at hc
    split at hc
    · next hs => exact hs
    · split at hc <;> cases hc

theorem findSeg_self (h : SegsOk S) (hs : s ∈ S) :
    ummuFindSeg s.startAddr s.grantSize S = (some s, .isMatch) := by
  simp [ummuFindSeg, h.masFind_self hs, ummuCompare]

/-! ## Updates -/

def insertSeg (S : List SegInfo) (s : SegInfo) : List SegInfo :=
  S.takeWhile (fun x => decide (x.startAddr < s.startAddr)) ++
    s :: S.dropWhile fun x => decide (x.startAddr < s.startAddr)

theorem mem_insertSeg : t ∈ insertSeg S s ↔ t = s ∨ t ∈ S := by
  have hS := takeWhile_append_dropWhile (p := fun x => decide (x.startAddr < s.startAddr)) (l := S)
  conv_rhs => rw [← hS]
  simp only [insertSeg, mem_append, mem_cons]
  tauto

theorem insert (h : SegsOk S) (ha : s.startAddr % 4096 = 0) (hb : s.last < 2 ^ 48)
    (hap : ∀ t ∈ S, t.last < s.startAddr ∨ s.last < t.startAddr) : SegsOk (insertSeg S s) := by
  refine ⟨fun {t} ht => ?_, fun {t} ht => ?_, ?_⟩
  · rcases mem_insertSeg.mp ht with rfl | ht
    · exact ha
    · exact h.aligned ht
  · rcases mem_insertSeg.mp ht with rfl | ht
    · exact hb
    · exact h.bound ht
  induction S with
  | nil => simp [insertSeg]
  | cons x S ih =>
    have hx := pairwise_cons.mp h.sorted
    have hxs := hap x mem_cons_self
    have := s.le_last
    have := x.le_last
    unfold insertSeg
    by_cases hlt : x.startAddr < s.startAddr
    · rw [takeWhile_cons_of_pos (by simpa using hlt),
        dropWhile_cons_of_pos (by simpa using hlt), cons_append]
      refine pairwise_cons.mpr ⟨fun t ht => ?_, ih h.tail fun t ht => hap t (.tail _ ht)⟩
      rcases mem_insertSeg.mp ht with rfl | ht
      · omega
      · exact hx.1 t ht
    · rw [takeWhile_cons_of_neg (by simpa using hlt),
        dropWhile_cons_of_neg (by simpa using hlt), nil_append]
      refine pairwise_cons.mpr ⟨fun t ht => ?_, h.sorted⟩
      rcases mem_cons.mp ht with rfl | ht
      · omega
      · have := hx.1 t ht
        omega

theorem erase (h : SegsOk S) (s : SegInfo) : SegsOk (S.erase s) :=
  ⟨fun ht => h.aligned (mem_of_mem_erase ht), fun ht => h.bound (mem_of_mem_erase ht),
    h.sorted.sublist erase_sublist⟩

theorem mtreeErase_self (h : SegsOk S) (hs : s ∈ S) :
    mtreeErase S s.startAddr = (some s, S.erase s) := by
  unfold mtreeErase
  have hf : S.find? (fun t => decide (t.startAddr ≤ s.startAddr ∧ s.startAddr ≤ t.last)) = some s := by
    cases hc : S.find? fun t => decide (t.startAddr ≤ s.startAddr ∧ s.startAddr ≤ t.last) with
    | none =>
      have := List.find?_eq_none.mp hc s hs
      have := s.le_last
      simp_all
    | some t =>
      have hp := List.find?_some hc
      have ht := mem_of_find?_eq_some hc
      by_cases hne : t = s
      · rw [hne]
      have := h.apart ht hs hne
      simp only [decide_eq_true_eq] at hp
      have := t.le_last; have := s.le_last
      omega
  rw [hf]

theorem replace (h : SegsOk S) {e' : SegInfo} (h1 : e'.startAddr = e.startAddr)
    (h2 : e'.last = e.last) : SegsOk (S.map fun x => if x = e then e' else x) := by
  have hs : ∀ x : SegInfo, (if x = e then e' else x).startAddr = x.startAddr ∧
      (if x = e then e' else x).last = x.last := fun x => by
    split
    · next hx => rw [hx]; exact ⟨h1, h2⟩
    · exact ⟨rfl, rfl⟩
  refine ⟨fun {t} ht => ?_, fun {t} ht => ?_, ?_⟩
  · obtain ⟨x, hx, rfl⟩ := mem_map.mp ht
    rw [(hs x).1]; exact h.aligned hx
  · obtain ⟨x, hx, rfl⟩ := mem_map.mp ht
    rw [(hs x).2]; exact h.bound hx
  · refine pairwise_map.mpr (h.sorted.imp fun {a b} hab => ?_)
    rw [(hs a).2, (hs b).1]; exact hab

end SegsOk

end UbDkms.Mapt
