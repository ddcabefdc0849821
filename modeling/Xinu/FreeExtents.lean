import Mathlib.Tactic

/-!
# Address-sorted lists of free extents

An allocator that keeps its free storage as a sorted list of extents carves a
request out of one of them and later puts the range back, merging it with its
neighbours.  This file states what carving and releasing do to such a list.
It knows nothing about the memory in which an implementation threads the list.
-/

namespace FreeExtents

/-- A nonempty range of addresses, given by its first address and its
length. -/
@[ext]
structure Extent where
  base : ℕ
  len : ℕ
  deriving DecidableEq, Repr

def Extent.top (e : Extent) : ℕ := e.base + e.len

@[simp] theorem Extent.top_mk (base len : ℕ) :
    Extent.top ⟨base, len⟩ = base + len := rfl

def Extent.Apart (a b : Extent) : Prop := a.top ≤ b.base ∨ b.top ≤ a.base

def Extent.Inside (a b : Extent) : Prop := b.base ≤ a.base ∧ a.top ≤ b.top

theorem Extent.Apart.symm {a b : Extent} (h : a.Apart b) : b.Apart a :=
  Or.symm h

theorem Extent.Apart.mono_left
    {a b c : Extent} (h : b.Apart c) (hin : a.Inside b) : a.Apart c := by
  unfold Extent.Apart at *
  unfold Extent.Inside at hin
  omega

theorem Extent.Inside.trans
    {a b c : Extent} (hab : a.Inside b) (hbc : b.Inside c) : a.Inside c := by
  unfold Extent.Inside at *
  omega

/-- Multiples of `unit`, and not empty. -/
structure Extent.Granular (unit : ℕ) (e : Extent) : Prop where
  base_dvd : unit ∣ e.base
  len_dvd : unit ∣ e.len
  len_pos : 0 < e.len

def Extent.Within (low high : ℕ) (e : Extent) : Prop :=
  low ≤ e.base ∧ e.top ≤ high

/-- Sorted by address, pairwise disjoint and never adjacent. -/
def Separated (l : List Extent) : Prop :=
  l.Pairwise fun a b => a.top < b.base

instance (l : List Extent) : Decidable (Separated l) :=
  inferInstanceAs (Decidable (List.Pairwise _ l))

def total (l : List Extent) : ℕ := (l.map Extent.len).sum

@[simp] theorem total_nil : total [] = 0 := rfl

@[simp] theorem total_cons (e : Extent) (l : List Extent) :
    total (e :: l) = e.len + total l := by
  simp [total]

@[simp] theorem total_append (l₁ l₂ : List Extent) :
    total (l₁ ++ l₂) = total l₁ + total l₂ := by
  simp [total]

/-! ## Carving -/

/-- What is left of an extent when `n` bytes are taken from its low end. -/
def takeLow (n : ℕ) (e : Extent) : List Extent :=
  if e.len = n then [] else [⟨e.base + n, e.len - n⟩]

/-- What is left of an extent when `n` bytes are taken from its high end. -/
def takeHigh (n : ℕ) (e : Extent) : List Extent :=
  if e.len = n then [] else [⟨e.base, e.len - n⟩]

/-- First fit, low end. -/
def carveFirst (n : ℕ) : List Extent → Option (Extent × List Extent)
  | [] => none
  | e :: l =>
      if n ≤ e.len then
        some (⟨e.base, n⟩, takeLow n e ++ l)
      else
        (carveFirst n l).map fun r => (r.1, e :: r.2)

/-- Last fit, high end. -/
def carveLast (n : ℕ) : List Extent → Option (Extent × List Extent)
  | [] => none
  | e :: l =>
      match carveLast n l with
      | some r => some (r.1, e :: r.2)
      | none =>
          if n ≤ e.len then
            some (⟨e.base + (e.len - n), n⟩, takeHigh n e ++ l)
          else
            none

theorem carveFirst_split
    {n : ℕ} {l : List Extent} {r : Extent × List Extent}
    (hcarve : carveFirst n l = some r) :
    ∃ pre e post, l = pre ++ e :: post ∧ (∀ c ∈ pre, c.len < n) ∧
      n ≤ e.len ∧ r = (⟨e.base, n⟩, pre ++ takeLow n e ++ post) := by
  induction l generalizing r with
  | nil => simp [carveFirst] at hcarve
  | cons e l ih =>
      unfold carveFirst at hcarve
      split_ifs at hcarve with hfit
      · simp only [Option.some.injEq] at hcarve
        exact ⟨[], e, l, rfl, by simp, hfit, hcarve.symm⟩
      · rw [Option.map_eq_some_iff] at hcarve
        obtain ⟨tail, htail, rfl⟩ := hcarve
        obtain ⟨pre, f, post, rfl, hpre, hfits, rfl⟩ := ih htail
        refine ⟨e :: pre, f, post, rfl, ?_, hfits, rfl⟩
        exact List.forall_mem_cons.mpr ⟨Nat.lt_of_not_le hfit, hpre⟩

theorem carveFirst_eq_none_iff {n : ℕ} {l : List Extent} :
    carveFirst n l = none ↔ ∀ e ∈ l, e.len < n := by
  induction l with
  | nil => simp [carveFirst]
  | cons e l ih =>
      unfold carveFirst
      split_ifs with hfit
      · simp [hfit]
      · simp [ih, Nat.lt_of_not_le hfit]

theorem carveLast_eq_none_iff {n : ℕ} {l : List Extent} :
    carveLast n l = none ↔ ∀ e ∈ l, e.len < n := by
  induction l with
  | nil => simp [carveLast]
  | cons e l ih =>
      unfold carveLast
      cases htail : carveLast n l with
      | some tail =>
          simp only [reduceCtorEq, List.mem_cons, forall_eq_or_imp, false_iff,
            not_and]
          intro _
          rw [← ih, htail]
          simp
      | none =>
          have hshort := ih.mp htail
          simp only [List.mem_cons, forall_eq_or_imp]
          split_ifs with hfit
          · simp [hfit]
          · simp only [true_iff]
            exact ⟨Nat.lt_of_not_le hfit, hshort⟩

theorem carveLast_split
    {n : ℕ} {l : List Extent} {r : Extent × List Extent}
    (hcarve : carveLast n l = some r) :
    ∃ pre e post, l = pre ++ e :: post ∧ (∀ c ∈ post, c.len < n) ∧
      n ≤ e.len ∧
      r = (⟨e.base + (e.len - n), n⟩, pre ++ takeHigh n e ++ post) := by
  induction l generalizing r with
  | nil => simp [carveLast] at hcarve
  | cons e l ih =>
      unfold carveLast at hcarve
      cases htail : carveLast n l with
      | some tail =>
          simp only [htail, Option.some.injEq] at hcarve
          subst r
          obtain ⟨pre, f, post, rfl, hpost, hfits, rfl⟩ := ih htail
          exact ⟨e :: pre, f, post, rfl, hpost, hfits, rfl⟩
      | none =>
          simp only [htail] at hcarve
          split_ifs at hcarve with hfit
          simp only [Option.some.injEq] at hcarve
          exact ⟨[], e, l, rfl, carveLast_eq_none_iff.mp htail, hfit,
            hcarve.symm⟩

/-- The pieces that carving leaves of one extent. -/
structure Remainder (b e : Extent) (mid : List Extent) : Prop where
  inside : b.Inside e
  total_eq : total mid + b.len = e.len
  pieces : ∀ c ∈ mid, c.Inside e ∧ c.Apart b
  short : mid.length ≤ 1

theorem takeLow_remainder {n : ℕ} {e : Extent} (hn : n ≤ e.len) :
    Remainder ⟨e.base, n⟩ e (takeLow n e) := by
  unfold takeLow
  split_ifs with heq
  · constructor <;> simp [Extent.Inside, Extent.top, heq]
  · constructor <;>
      simp [Extent.Inside, Extent.Apart, Extent.top] <;> omega

theorem takeHigh_remainder {n : ℕ} {e : Extent} (hn : n ≤ e.len) :
    Remainder ⟨e.base + (e.len - n), n⟩ e (takeHigh n e) := by
  unfold takeHigh
  split_ifs with heq
  · constructor <;> simp [Extent.Inside, Extent.top, heq]
  · constructor <;>
      simp [Extent.Inside, Extent.Apart, Extent.top] <;> omega

/-- `l'` is `l` with one extent cut down to the pieces around `b`. -/
def Carved (b : Extent) (l l' : List Extent) : Prop :=
  ∃ pre e mid post, l = pre ++ e :: post ∧ l' = pre ++ mid ++ post ∧
    Remainder b e mid

theorem carveFirst_carved
    {n : ℕ} {l : List Extent} {r : Extent × List Extent}
    (hcarve : carveFirst n l = some r) : Carved r.1 l r.2 := by
  obtain ⟨pre, e, post, rfl, -, hfit, rfl⟩ := carveFirst_split hcarve
  exact ⟨pre, e, takeLow n e, post, rfl, rfl, takeLow_remainder hfit⟩

theorem carveLast_carved
    {n : ℕ} {l : List Extent} {r : Extent × List Extent}
    (hcarve : carveLast n l = some r) : Carved r.1 l r.2 := by
  obtain ⟨pre, e, post, rfl, -, hfit, rfl⟩ := carveLast_split hcarve
  exact ⟨pre, e, takeHigh n e, post, rfl, rfl, takeHigh_remainder hfit⟩

theorem Carved.inside
    {b : Extent} {l l' : List Extent} (h : Carved b l l') :
    ∃ e ∈ l, b.Inside e := by
  obtain ⟨pre, e, mid, post, rfl, -, hcut⟩ := h
  exact ⟨e, by simp, hcut.inside⟩

theorem Carved.total_eq
    {b : Extent} {l l' : List Extent} (h : Carved b l l') :
    total l' + b.len = total l := by
  obtain ⟨pre, e, mid, post, rfl, rfl, hcut⟩ := h
  have hlen := hcut.total_eq
  simp only [total_append, total_cons]
  omega

/-- Every extent left over was part of an old one. -/
theorem Carved.mem_inside
    {b : Extent} {l l' : List Extent} (h : Carved b l l')
    {c : Extent} (hc : c ∈ l') : ∃ e ∈ l, c.Inside e := by
  obtain ⟨pre, e, mid, post, rfl, rfl, hcut⟩ := h
  rw [List.append_assoc] at hc
  simp only [List.mem_append] at hc
  have hself : ∀ d : Extent, d.Inside d := fun d => ⟨le_rfl, le_rfl⟩
  rcases hc with hpre | hmid | hpost
  · exact ⟨c, by simp [hpre], hself c⟩
  · exact ⟨e, by simp, (hcut.pieces c hmid).1⟩
  · exact ⟨c, by simp [hpost], hself c⟩

theorem Carved.apart
    {b : Extent} {l l' : List Extent} (h : Carved b l l')
    (hsep : Separated l) {c : Extent} (hc : c ∈ l') : b.Apart c := by
  obtain ⟨pre, e, mid, post, rfl, rfl, hcut⟩ := h
  have hin := hcut.inside
  unfold Separated at hsep
  rw [List.pairwise_append, List.pairwise_cons] at hsep
  obtain ⟨-, ⟨hpost, -⟩, hpre⟩ := hsep
  rw [List.append_assoc] at hc
  simp only [List.mem_append] at hc
  unfold Extent.Inside at hin
  rcases hc with hc | hc | hc
  · have hlt := hpre c hc e (by simp)
    unfold Extent.Apart
    omega
  · exact (hcut.pieces c hc).2.symm
  · have hlt := hpost c hc
    unfold Extent.Apart
    omega

theorem Carved.separated
    {b : Extent} {l l' : List Extent} (h : Carved b l l')
    (hsep : Separated l) : Separated l' := by
  obtain ⟨pre, e, mid, post, rfl, rfl, hcut⟩ := h
  unfold Separated at hsep ⊢
  rw [List.pairwise_append, List.pairwise_cons] at hsep
  obtain ⟨hpre, ⟨hepost, hpost⟩, hcross⟩ := hsep
  have hmidpair : mid.Pairwise fun a b => a.top < b.base := by
    match mid, hcut.short with
    | [], _ => exact List.Pairwise.nil
    | [c], _ => exact List.pairwise_singleton _ c
  rw [List.append_assoc, List.pairwise_append, List.pairwise_append]
  refine ⟨hpre, ⟨hmidpair, hpost, ?_⟩, ?_⟩
  · intro c hc d hd
    have hin := (hcut.pieces c hc).1
    have hlt := hepost d hd
    unfold Extent.Inside at hin
    omega
  · intro a ha c hc
    rw [List.mem_append] at hc
    rcases hc with hc | hc
    · have hin := (hcut.pieces c hc).1
      have hlt := hcross a ha e (by simp)
      unfold Extent.Inside at hin
      omega
    · exact hcross a ha c (by simp [hc])

theorem takeLow_granular
    {unit n : ℕ} {e c : Extent} (he : e.Granular unit) (hn : unit ∣ n)
    (hfit : n ≤ e.len) (hc : c ∈ takeLow n e) : c.Granular unit := by
  unfold takeLow at hc
  split_ifs at hc with heq
  · simp at hc
  · simp only [List.mem_singleton] at hc
    subst c
    exact ⟨he.base_dvd.add hn, Nat.dvd_sub he.len_dvd hn, by simp only; omega⟩

theorem takeHigh_granular
    {unit n : ℕ} {e c : Extent} (he : e.Granular unit) (hn : unit ∣ n)
    (hfit : n ≤ e.len) (hc : c ∈ takeHigh n e) : c.Granular unit := by
  unfold takeHigh at hc
  split_ifs at hc with heq
  · simp at hc
  · simp only [List.mem_singleton] at hc
    subst c
    exact ⟨he.base_dvd, Nat.dvd_sub he.len_dvd hn, by simp only; omega⟩

theorem carveFirst_granular
    {unit n : ℕ} {l : List Extent} {r : Extent × List Extent}
    (hl : ∀ e ∈ l, e.Granular unit) (hn : unit ∣ n) (hpos : 0 < n)
    (hcarve : carveFirst n l = some r) :
    r.1.Granular unit ∧ ∀ e ∈ r.2, e.Granular unit := by
  obtain ⟨pre, e, post, rfl, -, hfit, rfl⟩ := carveFirst_split hcarve
  have he := hl e (by simp)
  refine ⟨⟨he.base_dvd, hn, hpos⟩, ?_⟩
  intro c hc
  rw [List.append_assoc] at hc
  simp only [List.mem_append] at hc
  rcases hc with hpre | hmid | hpost
  · exact hl c (by simp [hpre])
  · exact takeLow_granular he hn hfit hmid
  · exact hl c (by simp [hpost])

theorem carveLast_granular
    {unit n : ℕ} {l : List Extent} {r : Extent × List Extent}
    (hl : ∀ e ∈ l, e.Granular unit) (hn : unit ∣ n) (hpos : 0 < n)
    (hcarve : carveLast n l = some r) :
    r.1.Granular unit ∧ ∀ e ∈ r.2, e.Granular unit := by
  obtain ⟨pre, e, post, rfl, -, hfit, rfl⟩ := carveLast_split hcarve
  have he := hl e (by simp)
  have hbase : unit ∣ e.base + (e.len - n) :=
    he.base_dvd.add (Nat.dvd_sub he.len_dvd hn)
  refine ⟨⟨hbase, hn, hpos⟩, ?_⟩
  intro c hc
  rw [List.append_assoc] at hc
  simp only [List.mem_append] at hc
  rcases hc with hpre | hmid | hpost
  · exact hl c (by simp [hpre])
  · exact takeHigh_granular he hn hfit hmid
  · exact hl c (by simp [hpost])

/-! ## Releasing -/

/-- Put `b` in front of a list that starts above it, merging it with the first
extent when they touch. -/
def joinRight (b : Extent) : List Extent → List Extent
  | [] => [b]
  | e :: l => if b.top = e.base then ⟨b.base, b.len + e.len⟩ :: l else b :: e :: l

/-- Put `b` at its place in a sorted list, merging it with either neighbour it
touches. -/
def release (b : Extent) : List Extent → List Extent
  | [] => [b]
  | e :: l =>
      if b.base < e.base then joinRight b (e :: l)
      else if e.top = b.base then joinRight ⟨e.base, e.len + b.len⟩ l
      else e :: release b l

@[simp] theorem total_joinRight (b : Extent) (l : List Extent) :
    total (joinRight b l) = b.len + total l := by
  cases l with
  | nil => simp [joinRight]
  | cons e l =>
      simp only [joinRight]
      split_ifs <;> simp [Nat.add_assoc]

@[simp] theorem total_release (b : Extent) (l : List Extent) :
    total (release b l) = b.len + total l := by
  induction l with
  | nil => simp [release]
  | cons e l ih =>
      unfold release
      split_ifs
      · simp
      · simp only [total_joinRight, total_cons]
        omega
      · simp only [total_cons, ih]
        omega

theorem joinRight_separated
    {b : Extent} {l : List Extent} (hl : Separated l)
    (hnonempty : ∀ e ∈ l, 0 < e.len) (hbelow : ∀ e ∈ l, b.top ≤ e.base) :
    Separated (joinRight b l) := by
  cases l with
  | nil => exact List.pairwise_singleton _ b
  | cons e l =>
      unfold Separated at hl
      rw [List.pairwise_cons] at hl
      simp only [joinRight]
      have hpos := hnonempty e (by simp)
      have hfirst := hbelow e (by simp)
      have htop : e.top = e.base + e.len := rfl
      split_ifs with htouch
      · refine List.pairwise_cons.mpr ⟨?_, hl.2⟩
        intro c hc
        have hlt := hl.1 c hc
        unfold Extent.top at htouch hlt ⊢
        simp only
        omega
      · refine List.pairwise_cons.mpr ⟨?_, List.pairwise_cons.mpr hl⟩
        intro c hc
        rcases List.mem_cons.mp hc with rfl | hc
        · omega
        · have hlt := hl.1 c hc
          omega

theorem joinRight_base_le
    {b c : Extent} {l : List Extent} (hc : c ∈ joinRight b l) :
    c.base = b.base ∨ c ∈ l := by
  cases l with
  | nil =>
      simp only [joinRight, List.mem_singleton] at hc
      exact Or.inl (by rw [hc])
  | cons e l =>
      simp only [joinRight] at hc
      split_ifs at hc
      · rcases List.mem_cons.mp hc with rfl | hc
        · exact Or.inl rfl
        · exact Or.inr (List.mem_cons_of_mem e hc)
      · rcases List.mem_cons.mp hc with rfl | hc
        · exact Or.inl rfl
        · exact Or.inr hc

/-- A released extent keeps the list sorted and non-adjacent. -/
theorem release_separated
    {b : Extent} {l : List Extent} (hl : Separated l) (hb : 0 < b.len)
    (hnonempty : ∀ e ∈ l, 0 < e.len) (hapart : ∀ e ∈ l, b.Apart e) :
    Separated (release b l) ∧
      ∀ lower, lower < b.base → (∀ e ∈ l, lower < e.base) →
        ∀ e ∈ release b l, lower < e.base := by
  induction l with
  | nil =>
      refine ⟨List.pairwise_singleton _ b, ?_⟩
      intro lower hlower _ e he
      simp only [release, List.mem_singleton] at he
      rw [he]
      exact hlower
  | cons e l ih =>
      have hl' := hl
      unfold Separated at hl'
      rw [List.pairwise_cons] at hl'
      obtain ⟨hehead, hltail⟩ := hl'
      have hepos := hnonempty e (by simp)
      have heapart := hapart e (by simp)
      have htop : e.top = e.base + e.len := rfl
      have hbtop : b.top = b.base + b.len := rfl
      have htailpos : ∀ c ∈ l, 0 < c.len := fun c hc =>
        hnonempty c (by simp [hc])
      have htailapart : ∀ c ∈ l, b.Apart c := fun c hc =>
        hapart c (by simp [hc])
      unfold release
      unfold Extent.Apart at heapart
      split_ifs with hlt htouch
      · refine ⟨joinRight_separated hl hnonempty ?_, ?_⟩
        · intro c hc
          rcases List.mem_cons.mp hc with rfl | hc
          · omega
          · have := hehead c hc
            omega
        · intro lower hlower hlow c hc
          rcases joinRight_base_le hc with hbase | hmem
          · omega
          · exact hlow c hmem
      · have hmerged : ∀ c ∈ l,
            Extent.top ⟨e.base, e.len + b.len⟩ ≤ c.base := by
          intro c hc
          have hgap := hehead c hc
          have hca := htailapart c hc
          have hcpos := htailpos c hc
          have hctop : c.top = c.base + c.len := rfl
          unfold Extent.Apart at hca
          simp only [Extent.top_mk]
          omega
        refine ⟨joinRight_separated hltail htailpos hmerged, ?_⟩
        intro lower hlower hlow c hc
        rcases joinRight_base_le hc with hbase | hmem
        · have := hlow e (by simp)
          simp only at hbase
          omega
        · exact hlow c (by simp [hmem])
      · obtain ⟨hsep, hbound⟩ := ih hltail htailpos htailapart
        refine ⟨List.pairwise_cons.mpr ⟨?_, hsep⟩, ?_⟩
        · exact hbound e.top (by omega) hehead
        · intro lower hlower hlow c hc
          rcases List.mem_cons.mp hc with rfl | hc
          · exact hlow c (by simp)
          · exact hbound lower hlower (fun d hd => hlow d (by simp [hd])) c hc

/-- Every extent of the new list is covered by `b` and the old extents it
merges, so whatever was apart from all of them is apart from it. -/
theorem joinRight_apart
    {b c : Extent} {l : List Extent} (hb : c.Apart b) (hc : 0 < c.len)
    (hl : ∀ e ∈ l, c.Apart e) : ∀ e ∈ joinRight b l, c.Apart e := by
  cases l with
  | nil =>
      intro e he
      simp only [joinRight, List.mem_singleton] at he
      rw [he]
      exact hb
  | cons f l =>
      simp only [joinRight]
      split_ifs with htouch
      · intro e he
        rcases List.mem_cons.mp he with rfl | he
        · have hf := hl f (by simp)
          unfold Extent.Apart Extent.top at *
          simp only
          omega
        · exact hl e (by simp [he])
      · intro e he
        rcases List.mem_cons.mp he with rfl | he
        · exact hb
        · exact hl e he

theorem release_apart
    {b c : Extent} {l : List Extent} (hb : c.Apart b) (hc : 0 < c.len)
    (hl : ∀ e ∈ l, c.Apart e) : ∀ e ∈ release b l, c.Apart e := by
  induction l with
  | nil =>
      intro e he
      simp only [release, List.mem_singleton] at he
      rw [he]
      exact hb
  | cons f l ih =>
      have hf := hl f (by simp)
      have htail : ∀ e ∈ l, c.Apart e := fun e he => hl e (by simp [he])
      unfold release
      split_ifs with hlt htouch
      · exact joinRight_apart hb hc hl
      · refine joinRight_apart ?_ hc htail
        unfold Extent.Apart Extent.top at *
        simp only
        omega
      · intro e he
        rcases List.mem_cons.mp he with rfl | he
        · exact hf
        · exact ih htail e he

theorem joinRight_granular
    {unit : ℕ} {b : Extent} {l : List Extent} (hb : b.Granular unit)
    (hl : ∀ e ∈ l, e.Granular unit) : ∀ e ∈ joinRight b l, e.Granular unit := by
  cases l with
  | nil => simpa [joinRight] using hb
  | cons f l =>
      have hf := hl f (by simp)
      simp only [joinRight]
      split_ifs with htouch
      · intro e he
        rcases List.mem_cons.mp he with rfl | he
        · exact ⟨hb.base_dvd, hb.len_dvd.add hf.len_dvd, by
            have := hb.len_pos
            simp only
            omega⟩
        · exact hl e (by simp [he])
      · exact List.forall_mem_cons.mpr ⟨hb, hl⟩

theorem release_granular
    {unit : ℕ} {b : Extent} {l : List Extent} (hb : b.Granular unit)
    (hl : ∀ e ∈ l, e.Granular unit) : ∀ e ∈ release b l, e.Granular unit := by
  induction l with
  | nil => simpa [release] using hb
  | cons f l ih =>
      have hf := hl f (by simp)
      have htail : ∀ e ∈ l, e.Granular unit := fun e he => hl e (by simp [he])
      unfold release
      split_ifs with hlt htouch
      · exact joinRight_granular hb hl
      · refine joinRight_granular ?_ htail
        exact ⟨hf.base_dvd, hf.len_dvd.add hb.len_dvd, by
          have := hf.len_pos
          simp only
          omega⟩
      · exact List.forall_mem_cons.mpr ⟨hf, ih htail⟩

theorem joinRight_within
    {low high : ℕ} {b : Extent} {l : List Extent} (hb : b.Within low high)
    (hl : ∀ e ∈ l, e.Within low high) :
    ∀ e ∈ joinRight b l, e.Within low high := by
  cases l with
  | nil => simpa [joinRight] using hb
  | cons f l =>
      have hf := hl f (by simp)
      simp only [joinRight]
      split_ifs with htouch
      · refine List.forall_mem_cons.mpr ⟨?_, fun e he => hl e (by simp [he])⟩
        unfold Extent.Within Extent.top at *
        simp only
        omega
      · exact List.forall_mem_cons.mpr ⟨hb, hl⟩

theorem release_within
    {low high : ℕ} {b : Extent} {l : List Extent} (hb : b.Within low high)
    (hl : ∀ e ∈ l, e.Within low high) :
    ∀ e ∈ release b l, e.Within low high := by
  induction l with
  | nil => simpa [release] using hb
  | cons f l ih =>
      have hf := hl f (by simp)
      have htail : ∀ e ∈ l, e.Within low high := fun e he => hl e (by simp [he])
      unfold release
      split_ifs with hlt htouch
      · exact joinRight_within hb hl
      · refine joinRight_within ?_ htail
        unfold Extent.Within Extent.top at *
        simp only
        omega
      · exact List.forall_mem_cons.mpr ⟨hf, ih htail⟩

theorem release_of_gap
    {b : Extent} {pre post : List Extent}
    (hpre : ∀ e ∈ pre, e.base ≤ b.base ∧ e.top ≠ b.base)
    (hpost : ∀ e ∈ post, b.base < e.base) :
    release b (pre ++ post) = pre ++ joinRight b post := by
  induction pre with
  | nil =>
      cases post with
      | nil => rfl
      | cons f post => simp [release, hpost f (by simp)]
  | cons e pre ih =>
      have he := hpre e (by simp)
      have htail := ih fun c hc => hpre c (by simp [hc])
      simp only [List.cons_append, release]
      rw [if_neg (Nat.not_lt.mpr he.1), if_neg he.2, htail]

theorem release_of_touch
    {b e : Extent} {pre post : List Extent}
    (hpre : ∀ c ∈ pre, c.base ≤ b.base ∧ c.top ≠ b.base)
    (hbase : e.base ≤ b.base) (htouch : e.top = b.base) :
    release b (pre ++ e :: post) =
      pre ++ joinRight ⟨e.base, e.len + b.len⟩ post := by
  induction pre with
  | nil =>
      simp only [List.nil_append, release]
      rw [if_neg (Nat.not_lt.mpr hbase), if_pos htouch]
  | cons c pre ih =>
      have hc := hpre c (by simp)
      have htail := ih fun d hd => hpre d (by simp [hd])
      simp only [List.cons_append, release]
      rw [if_neg (Nat.not_lt.mpr hc.1), if_neg hc.2, htail]

theorem joinRight_of_gap
    {b : Extent} {l : List Extent} (hgap : ∀ e ∈ l, b.top ≠ e.base) :
    joinRight b l = b :: l := by
  cases l with
  | nil => rfl
  | cons e l => exact if_neg (hgap e (by simp))

theorem Separated.around
    {e : Extent} {pre post : List Extent}
    (hsep : Separated (pre ++ e :: post)) :
    (∀ c ∈ pre, c.top < e.base) ∧ ∀ c ∈ post, e.top < c.base := by
  unfold Separated at hsep
  rw [List.pairwise_append, List.pairwise_cons] at hsep
  exact ⟨fun c hc => hsep.2.2 c hc e (by simp), hsep.2.1.1⟩

/-- Releasing what was just carved from the low end gives the list back. -/
theorem release_takeLow
    {n : ℕ} {e : Extent} {pre post : List Extent}
    (hsep : Separated (pre ++ e :: post)) (hpos : 0 < n) (hfit : n ≤ e.len) :
    release ⟨e.base, n⟩ (pre ++ takeLow n e ++ post) = pre ++ e :: post := by
  obtain ⟨hbelow, habove⟩ := hsep.around
  have htop : e.top = e.base + e.len := rfl
  have hpre : ∀ c ∈ pre, c.base ≤ e.base ∧ c.top ≠ e.base := by
    intro c hc
    have hlt := hbelow c hc
    unfold Extent.top at hlt ⊢
    omega
  have hpost : ∀ c ∈ takeLow n e ++ post, e.base < c.base := by
    intro c hc
    rcases List.mem_append.mp hc with hc | hc
    · unfold takeLow at hc
      split_ifs at hc with hall
      · simp at hc
      · rw [List.mem_singleton.mp hc]
        show e.base < e.base + n
        omega
    · have hlt := habove c hc
      omega
  have hplaced : release ⟨e.base, n⟩ (pre ++ (takeLow n e ++ post)) =
      pre ++ joinRight ⟨e.base, n⟩ (takeLow n e ++ post) :=
    release_of_gap hpre hpost
  rw [List.append_assoc, hplaced]
  congr 1
  unfold takeLow
  split_ifs with hall
  · subst hall
    exact joinRight_of_gap fun c hc => (habove c hc).ne
  · have hmerged : (⟨e.base, n + (e.len - n)⟩ : Extent) = e := by
      rw [Nat.add_sub_cancel' hfit]
    show (if e.base + n = e.base + n then _ else _) = e :: post
    rw [if_pos rfl]
    exact congrArg (· :: post) hmerged

theorem release_takeHigh
    {n : ℕ} {e : Extent} {pre post : List Extent}
    (hsep : Separated (pre ++ e :: post)) (hpos : 0 < n) (hfit : n ≤ e.len) :
    release ⟨e.base + (e.len - n), n⟩ (pre ++ takeHigh n e ++ post) =
      pre ++ e :: post := by
  by_cases hall : e.len = n
  · have hlow := release_takeLow hsep hpos hfit
    have hwhole : takeHigh n e = takeLow n e := by
      rw [takeHigh, takeLow, if_pos hall, if_pos hall]
    rw [hwhole, hall, Nat.sub_self, Nat.add_zero, hlow]
  · obtain ⟨hbelow, habove⟩ := hsep.around
    have hpre : ∀ c ∈ pre, c.base ≤ e.base + (e.len - n) ∧
        c.top ≠ e.base + (e.len - n) := by
      intro c hc
      have hlt := hbelow c hc
      unfold Extent.top at hlt ⊢
      omega
    have hmerged : (⟨e.base, e.len - n + n⟩ : Extent) = e := by
      rw [Nat.sub_add_cancel hfit]
    have hjoined : release ⟨e.base + (e.len - n), n⟩
        (pre ++ ⟨e.base, e.len - n⟩ :: post) =
          pre ++ joinRight ⟨e.base, e.len - n + n⟩ post :=
      release_of_touch hpre (Nat.le_add_right _ _) rfl
    rw [takeHigh, if_neg hall, List.append_assoc, List.singleton_append, hjoined,
      hmerged, joinRight_of_gap fun c hc => (habove c hc).ne]

/-- A sorted list in a bounded range holds no more than the range. -/
theorem Separated.total_le
    {l : List Extent} {low high : ℕ} (hl : Separated l)
    (hwithin : ∀ e ∈ l, e.Within low high) : total l ≤ high - low := by
  induction l generalizing low with
  | nil => simp
  | cons e l ih =>
      unfold Separated at hl
      rw [List.pairwise_cons] at hl
      have he := hwithin e (by simp)
      have htop : e.top = e.base + e.len := rfl
      have htail : total l ≤ high - e.top := by
        apply ih hl.2
        intro c hc
        have hlt := hl.1 c hc
        have hin := hwithin c (by simp [hc])
        exact ⟨hlt.le, hin.2⟩
      unfold Extent.Within at he
      rw [total_cons]
      omega

theorem length_le_total
    {l : List Extent} (hnonempty : ∀ e ∈ l, 0 < e.len) :
    l.length ≤ total l := by
  induction l with
  | nil => simp
  | cons e l ih =>
      have hpos := hnonempty e (by simp)
      have htail := ih fun c hc => hnonempty c (by simp [hc])
      rw [List.length_cons, total_cons]
      omega

/-! ## Free and live extents -/

/-- Free and handed-out extents of one region, without any overlap. -/
structure Partitioned
    (unit low high : ℕ) (free live : List Extent) : Prop where
  separated : Separated free
  free_granular : ∀ e ∈ free, e.Granular unit
  live_granular : ∀ e ∈ live, e.Granular unit
  free_within : ∀ e ∈ free, e.Within low high
  live_within : ∀ e ∈ live, e.Within low high
  live_apart : live.Pairwise Extent.Apart
  apart : ∀ b ∈ live, ∀ e ∈ free, b.Apart e

section Partition

variable {unit low high : ℕ} {free live : List Extent} {b : Extent}

theorem Partitioned.carve
    {free' : List Extent} (h : Partitioned unit low high free live)
    (hcarved : Carved b free free') (hb : b.Granular unit)
    (hfree : ∀ e ∈ free', e.Granular unit) :
    Partitioned unit low high free' (b :: live) := by
  have hwithin : ∀ c : Extent, (∃ e ∈ free, c.Inside e) →
      c.Within low high := by
    rintro c ⟨e, he, hin⟩
    have hbound := h.free_within e he
    unfold Extent.Within Extent.Inside at *
    omega
  have hinside := hcarved.inside
  refine ⟨hcarved.separated h.separated, hfree, ?_, ?_, ?_, ?_, ?_⟩
  · exact List.forall_mem_cons.mpr ⟨hb, h.live_granular⟩
  · intro c hc
    exact hwithin c (hcarved.mem_inside hc)
  · exact List.forall_mem_cons.mpr ⟨hwithin b hinside, h.live_within⟩
  · refine List.pairwise_cons.mpr ⟨?_, h.live_apart⟩
    intro c hc
    obtain ⟨e, he, hin⟩ := hinside
    exact (h.apart c hc e he).symm.mono_left hin
  · intro c hc e he
    rcases List.mem_cons.mp hc with rfl | hc
    · exact hcarved.apart h.separated he
    · obtain ⟨f, hf, hin⟩ := hcarved.mem_inside he
      exact ((h.apart c hc f hf).symm.mono_left hin).symm

theorem Partitioned.release
    {live' : List Extent} (h : Partitioned unit low high free live)
    (hlive : live.Perm (b :: live')) :
    Partitioned unit low high (release b free) live' := by
  have hmem : ∀ c ∈ live', c ∈ live := fun c hc =>
    hlive.mem_iff.mpr (by simp [hc])
  have hb : b ∈ live := hlive.mem_iff.mpr (by simp)
  have hpair := (hlive.pairwise_iff fun hab => Extent.Apart.symm hab).mp
    h.live_apart
  rw [List.pairwise_cons] at hpair
  have hapart := h.apart b hb
  refine ⟨?_, release_granular (h.live_granular b hb) h.free_granular, ?_,
    release_within (h.live_within b hb) h.free_within, ?_, hpair.2, ?_⟩
  · exact (release_separated h.separated (h.live_granular b hb).len_pos
      (fun e he => (h.free_granular e he).len_pos) hapart).1
  · exact fun c hc => h.live_granular c (hmem c hc)
  · exact fun c hc => h.live_within c (hmem c hc)
  · intro c hc e he
    have hcpos := (h.live_granular c (hmem c hc)).len_pos
    exact release_apart (hpair.1 c hc).symm hcpos
      (h.apart c (hmem c hc)) e he

end Partition

end FreeExtents
