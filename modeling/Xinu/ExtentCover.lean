import Xinu.FreeExtents

/-!
# How many extents of a list cover an address

Carving and releasing move addresses between a list of extents and its owners
without losing any: the number of extents that cover an address goes up or down
by what the carved or released extent covers.  The bases of a list change little
too, which is all that a list needs whose lowest extent must stay where it is.
-/

namespace FreeExtents

/-! ## Counting -/

/-- One for an address inside the extent. -/
def Extent.tally (e : Extent) (x : ℕ) : ℕ :=
  if e.base ≤ x ∧ x < e.top then 1 else 0

def covers (l : List Extent) (x : ℕ) : ℕ := (l.map (·.tally x)).sum

@[simp] theorem covers_nil (x : ℕ) : covers [] x = 0 := rfl

@[simp] theorem covers_cons (e : Extent) (l : List Extent) (x : ℕ) :
    covers (e :: l) x = e.tally x + covers l x := by
  simp [covers]

@[simp] theorem covers_append (l l' : List Extent) (x : ℕ) :
    covers (l ++ l') x = covers l x + covers l' x := by
  simp [covers]

theorem covers_perm {l l' : List Extent} (h : l.Perm l') (x : ℕ) :
    covers l x = covers l' x :=
  (h.map _).sum_eq

/-- Adjacent extents cover what they cover together. -/
theorem tally_split (base len len' x : ℕ) :
    Extent.tally ⟨base, len + len'⟩ x =
      Extent.tally ⟨base, len⟩ x + Extent.tally ⟨base + len, len'⟩ x := by
  simp only [Extent.tally, Extent.top_mk]
  by_cases hlow : base ≤ x <;> by_cases hmid : x < base + len <;>
    by_cases hhigh : x < base + len + len' <;>
      simp [hlow, hmid, hhigh, ← Nat.add_assoc] <;> omega

theorem tally_join {b e : Extent} (h : b.top = e.base) (x : ℕ) :
    Extent.tally ⟨b.base, b.len + e.len⟩ x = b.tally x + e.tally x := by
  rw [tally_split, show b.base + b.len = e.base from h]

@[simp] theorem covers_joinRight (b : Extent) (l : List Extent) (x : ℕ) :
    covers (joinRight b l) x = b.tally x + covers l x := by
  cases l with
  | nil => simp [joinRight]
  | cons e l =>
      simp only [joinRight]
      split_ifs with htouch
      · rw [covers_cons, covers_cons, tally_join htouch, Nat.add_assoc]
      · rw [covers_cons]

@[simp] theorem covers_release (b : Extent) (l : List Extent) (x : ℕ) :
    covers (release b l) x = b.tally x + covers l x := by
  induction l with
  | nil => simp [release]
  | cons e l ih =>
      unfold release
      split_ifs with hlt htouch
      · rw [covers_joinRight]
      · rw [covers_joinRight, covers_cons, tally_join htouch]
        omega
      · rw [covers_cons, covers_cons, ih]
        omega

theorem covers_carveLast
    {n : ℕ} {l : List Extent} {r : Extent × List Extent}
    (hcarve : carveLast n l = some r) (x : ℕ) :
    r.1.tally x + covers r.2 x = covers l x := by
  obtain ⟨pre, e, post, rfl, -, hfit, rfl⟩ := carveLast_split hcarve
  have hcut : Extent.tally ⟨e.base + (e.len - n), n⟩ x +
      covers (takeHigh n e) x = e.tally x := by
    by_cases hall : e.len = n
    · subst hall
      simp [takeHigh]
    · have hsplit := tally_split e.base (e.len - n) n x
      rw [Nat.sub_add_cancel hfit] at hsplit
      rw [takeHigh, if_neg hall, covers_cons, covers_nil,
        show e.tally x = Extent.tally ⟨e.base, e.len⟩ x from rfl, hsplit]
      omega
  simp only [covers_append, covers_cons]
  omega

/-- No extent begins elsewhere than one did before. -/
theorem base_of_carveLast
    {n : ℕ} {l : List Extent} {r : Extent × List Extent} {c : Extent}
    (hcarve : carveLast n l = some r) (hc : c ∈ r.2) :
    ∃ e ∈ l, c.base = e.base := by
  obtain ⟨pre, e, post, rfl, -, -, rfl⟩ := carveLast_split hcarve
  simp only [List.append_assoc, List.mem_append] at hc
  rcases hc with hc | hc | hc
  · exact ⟨c, by simp [hc], rfl⟩
  · unfold takeHigh at hc
    split_ifs at hc
    · cases hc
    · exact ⟨e, by simp, by rw [List.mem_singleton.mp hc]⟩
  · exact ⟨c, by simp [hc], rfl⟩

/-- An extent that is not carved from its very base stays. -/
theorem base_mem_carveLast
    {n : ℕ} {l : List Extent} {r : Extent × List Extent} {e : Extent}
    (hcarve : carveLast n l = some r) (he : e ∈ l) (hne : r.1.base ≠ e.base) :
    ∃ c ∈ r.2, c.base = e.base := by
  obtain ⟨pre, f, post, rfl, -, hfit, rfl⟩ := carveLast_split hcarve
  simp only [List.mem_append, List.mem_cons] at he
  rcases he with he | rfl | he
  · exact ⟨e, by simp [he], rfl⟩
  · have hlong : e.len ≠ n := by
      rintro rfl
      simp at hne
    refine ⟨⟨e.base, e.len - n⟩, ?_, rfl⟩
    simp [takeHigh, hlong]
  · exact ⟨e, by simp [he], rfl⟩

theorem base_of_release
    {b c : Extent} {l : List Extent} (hc : c ∈ release b l) :
    c.base = b.base ∨ ∃ e ∈ l, c.base = e.base := by
  induction l with
  | nil =>
      simp only [release, List.mem_singleton] at hc
      exact Or.inl (by rw [hc])
  | cons e l ih =>
      unfold release at hc
      split_ifs at hc with hlt htouch
      · rcases joinRight_base_le hc with hbase | hmem
        · exact Or.inl hbase
        · exact Or.inr ⟨c, hmem, rfl⟩
      · rcases joinRight_base_le hc with hbase | hmem
        · exact Or.inr ⟨e, by simp, hbase⟩
        · exact Or.inr ⟨c, by simp [hmem], rfl⟩
      · rcases List.mem_cons.mp hc with rfl | hc
        · exact Or.inr ⟨c, by simp, rfl⟩
        · rcases ih hc with hbase | ⟨f, hf, hbase⟩
          · exact Or.inl hbase
          · exact Or.inr ⟨f, by simp [hf], hbase⟩

/-- An extent below the released one keeps its base. -/
theorem base_mem_release
    {b e : Extent} {l : List Extent} (he : e ∈ l) (hbelow : e.base ≤ b.base)
    (hsep : Separated l) : ∃ c ∈ release b l, c.base = e.base := by
  induction l with
  | nil => cases he
  | cons f l ih =>
      unfold Separated at hsep
      rw [List.pairwise_cons] at hsep
      unfold release
      rcases List.mem_cons.mp he with rfl | he
      · rw [if_neg (by omega)]
        split_ifs
        · cases l with
          | nil => exact ⟨_, List.mem_singleton_self _, rfl⟩
          | cons g l =>
              simp only [joinRight]
              split_ifs
              · exact ⟨_, List.mem_cons_self, rfl⟩
              · exact ⟨_, List.mem_cons_self, rfl⟩
        · exact ⟨e, by simp, rfl⟩
      · have hlt := hsep.1 e he
        have htop : f.top = f.base + f.len := rfl
        rw [if_neg (by omega), if_neg (by omega)]
        obtain ⟨c, hc, hbase⟩ := ih he hsep.2
        exact ⟨c, by simp [hc], hbase⟩

end FreeExtents
