import Xinu.DnsResponses

/-!
# Queries for a name server

`dns_bldq`, and whether the question that it builds is read as the name that
it was built for.  The data area is the list of the bytes written to it, which
`dns_bldq` writes one after the other.
-/

namespace Xinu.Dns

open ByteMemory Tftp UdpClients

/-- The data area, the place of the last length byte and `qlen`. -/
structure Question where
  data : List Octet
  llptr : ℕ
  qlen : ℕ

namespace Question

variable (q : Question)

def addChar (ch : Octet) : Question where
  data := (q.data ++ [ch]).modify q.llptr (· + 1)
  llptr := q.llptr
  qlen := q.qlen + 1

def startLabel : Question where
  data := q.data ++ [0]
  llptr := q.data.length
  qlen := q.qlen + 1

end Question

/-- The loop over the characters, and whether it has reached the end. -/
def addName : List Octet → Question → Question × Bool
  | [], q => (q, true)
  | ch :: dname, q =>
      if q.qlen ≥ DNSDATASIZ then (q, false)
      else if ch ≠ DOT then addName dname (q.addChar ch)
      else addName dname q.startLabel

/-- `dns_bldq` with the bytes that it writes; `none` is `SYSERR`. -/
def bldq (dname : List Octet) : List Octet × Option ℕ :=
  let (q, whole) := addName dname ⟨[0], 0, 1⟩
  if whole then (q.data ++ [0] ++ [0, 1] ++ [0, 1], some (DATA + (q.qlen + 1 + 2 + 2)))
  else (q.data, none)

/-- The message that `dnslookup` sends. -/
def queryPacket (header data : List Octet) (len : ℕ) : Packet :=
  (header ++ data).take len

/-- What `dnslookup` and the two decoders expect of a query. -/
structure Built (dname data : List Octet) (len : ℕ) : Prop where
  inside : data.length ≤ DNSDATASIZ
  length : len = DATA + data.length
  decoded : ∀ header rname, header.length = DATA → ∃ fuel n out,
    dnsGetrname (queryPacket header data len) fuel DATA rname = some (n, out) ∧
      (∀ i (hi : i < dname.length), out i = dname[i]) ∧ out dname.length = 0
  skipped : ∀ header, header.length = DATA → ∃ fuel,
    skipQuestion (queryPacket header data len) fuel DATA = some len

/-- `dns_bldq` refuses the name or builds a question for it. -/
def BuiltOrRefused (dname : List Octet) : Prop :=
  ∀ len, (bldq dname).2 = some len → Built dname (bldq dname).1 len

/-- Names as they are written. -/
structure DomainName where
  labels : List (List Octet)
  nonempty : labels ≠ []
  label : ∀ l ∈ labels, l ≠ [] ∧ DOT ∉ l ∧ 0 ∉ l

def DomainName.text (name : DomainName) : List Octet :=
  [DOT].intercalate name.labels

/-! ## What is written -/

def encode (labels : List (List Octet)) : List Octet :=
  labels.flatMap fun l => BitVec.ofNat 8 l.length :: l

section Writing

variable {q : Question} {l : List Octet} {labels : List (List Octet)}

theorem addName_spec
    (dname : List Octet) (hlen : q.qlen = q.data.length)
    (hq : q.qlen ≤ DNSDATASIZ) :
    ((addName dname q).2 = true ↔ q.qlen + dname.length ≤ DNSDATASIZ) ∧
      ((addName dname q).2 = true →
        (addName dname q).1.data.length = q.data.length + dname.length ∧
          (addName dname q).1.qlen = q.qlen + dname.length) := by
  induction dname generalizing q with
  | nil => simpa [addName] using hq
  | cons ch dname ih =>
      unfold addName
      rw [List.length_cons]
      by_cases hfull : q.qlen ≥ DNSDATASIZ
      · rw [if_pos hfull]
        simp only [Bool.false_eq_true, false_iff, false_implies, and_true]
        omega
      · rw [if_neg hfull]
        have hstep : ∀ q' : Question, q'.qlen = q.qlen + 1 →
            q'.data.length = q.data.length + 1 →
              ((addName dname q').2 = true ↔
                  q.qlen + (dname.length + 1) ≤ DNSDATASIZ) ∧
                ((addName dname q').2 = true →
                  (addName dname q').1.data.length =
                    q.data.length + (dname.length + 1) ∧
                  (addName dname q').1.qlen = q.qlen + (dname.length + 1)) := by
          intro q' hqlen hdata
          obtain ⟨hwhole, hlens⟩ := @ih q' (by omega) (by omega)
          rw [hwhole] at hlens ⊢
          exact ⟨by omega, fun h => by have := hlens (by omega); omega⟩
        split_ifs
        · apply hstep
          · rfl
          · simp [Question.addChar]
        · apply hstep
          · rfl
          · simp [Question.startLabel]

theorem modify_length {α : Type*} {front back : List α} {x : α} (f : α → α) :
    (front ++ x :: back).modify front.length f = front ++ f x :: back := by
  induction front with
  | nil => rfl
  | cons y front ih =>
      rw [List.cons_append, List.length_cons, List.modify_succ_cons, ih]
      rfl

/-- The characters of a label go to its end, and its length byte counts them. -/
theorem addName_label
    {front rest : List Octet} (cur : List Octet) (hl : DOT ∉ l)
    (hroom : (front.length + 1 + cur.length) + l.length ≤ DNSDATASIZ) :
    addName (l ++ rest)
        ⟨front ++ BitVec.ofNat 8 cur.length :: cur, front.length,
          front.length + 1 + cur.length⟩ =
      addName rest
        ⟨front ++ BitVec.ofNat 8 (cur ++ l).length :: (cur ++ l), front.length,
          front.length + 1 + (cur ++ l).length⟩ := by
  induction l generalizing cur with
  | nil => rw [List.nil_append, List.append_nil]
  | cons ch l ih =>
      rw [List.mem_cons, not_or] at hl
      rw [List.length_cons] at hroom
      have hnext := ih (cur ++ [ch]) hl.2
        (by rw [List.length_append, List.length_singleton]; omega)
      rw [List.append_assoc, List.singleton_append] at hnext
      rw [List.cons_append, addName, if_neg (by dsimp only; omega),
        if_pos (Ne.symm hl.1), ← hnext]
      congr 1
      unfold Question.addChar
      dsimp only
      congr 1
      · rw [List.append_assoc, List.cons_append, modify_length,
          List.length_append, List.length_singleton, BitVec.ofNat_add]
        rfl
      · rw [List.length_append, List.length_singleton]
        omega

theorem encode_length : (encode labels).length = (spell labels).length := by
  induction labels with
  | nil => rfl
  | cons l labels ih =>
      rw [spell_cons]
      unfold encode at ih ⊢
      rw [List.flatMap_cons, List.length_append, ih]
      simp only [List.length_cons, List.length_append, List.length_nil]

theorem spell_eq_intercalate (h : labels ≠ []) :
    spell labels = [DOT].intercalate labels ++ [DOT] := by
  induction labels with
  | nil => exact absurd rfl h
  | cons l labels ih =>
      cases labels with
      | nil => simp [spell, List.intercalate]
      | cons l' labels =>
          rw [spell_cons, ih (by simp)]
          simp [List.intercalate, List.intersperse]

theorem addName_text
    (front : List Octet) (hlabels : labels ≠ []) (hdots : ∀ l ∈ labels, DOT ∉ l)
    (hroom : front.length + (encode labels).length ≤ DNSDATASIZ) :
    (addName ([DOT].intercalate labels)
      ⟨front ++ [0], front.length, front.length + 1⟩).1.data =
        front ++ encode labels := by
  induction labels generalizing front with
  | nil => exact absurd rfl hlabels
  | cons l labels ih =>
      have hl := hdots l (by simp)
      have hencode : encode (l :: labels) =
          BitVec.ofNat 8 l.length :: l ++ encode labels := rfl
      rw [hencode, List.length_append, List.length_cons] at hroom
      have hfirst : ∀ rest, addName (l ++ rest)
          ⟨front ++ [0], front.length, front.length + 1⟩ =
            addName rest ⟨front ++ BitVec.ofNat 8 l.length :: l, front.length,
              front.length + 1 + l.length⟩ := by
        intro rest
        exact addName_label [] hl (by simp; omega)
      cases labels with
      | nil =>
          have htext : [DOT].intercalate [l] = l ++ [] := by
            simp [List.intercalate]
          rw [htext, hfirst]
          simp [addName, encode]
      | cons l' labels =>
          have htext : [DOT].intercalate (l :: l' :: labels) =
              l ++ DOT :: [DOT].intercalate (l' :: labels) := by
            simp [List.intercalate, List.intersperse]
          have hpos : 0 < (encode (l' :: labels)).length := by
            simp [encode]
          have hrest := ih (front ++ BitVec.ofNat 8 l.length :: l) (by simp)
            (fun x hx => hdots x (List.mem_cons_of_mem l hx))
            (by rw [List.length_append, List.length_cons]; omega)
          rw [htext, hfirst, addName, if_neg (by dsimp only; omega),
            if_neg (by simp), hencode, ← List.append_assoc, ← hrest]
          congr 3
          unfold Question.startLabel
          rw [List.length_append, List.length_cons]
          congr 1
          dsimp only
          omega

end Writing

/-! ## What is read -/

section Reading

variable {pkt : Packet} {p q : ℕ} {w : List Octet} {labels : List (List Octet)}

theorem Name.label_le (hname : Name pkt p q labels) :
    ∀ l ∈ labels, l.length ≤ 63 := by
  induction hname with
  | root _ => simp
  | label _ _ hlen _ ih =>
      intro l hl
      rcases List.mem_cons.mp hl with rfl | hl
      · rw [List.length_take]
        omega
      · exact ih l hl
  | pointer _ _ _ _ ih => exact ih

/-- A part of a list on one side of an element that it does not contain. -/
theorem infix_of_not_mem
    {a b : List Octet} {x : Octet} (h : w <:+: a ++ x :: b) (hx : x ∉ w) :
    w <:+: a ∨ w <:+: b := by
  obtain ⟨front, back, heq⟩ := h
  rw [List.append_assoc] at heq
  rcases List.append_eq_append_iff.mp heq with ⟨mid, ha, hrest⟩ | ⟨mid, hfront, hrest⟩
  · -- `w` starts in `a`
    rcases List.append_eq_append_iff.mp hrest with ⟨tail, hmid, -⟩ | ⟨tail, hw, hb⟩
    · left
      exact ⟨front, tail, by rw [ha, hmid, List.append_assoc]⟩
    · cases tail with
      | nil =>
          left
          rw [List.append_nil] at hw
          exact ⟨front, [], by rw [ha, hw, List.append_nil]⟩
      | cons y tail =>
          rw [List.cons_append] at hb
          obtain ⟨rfl, -⟩ := List.cons.inj hb
          exact absurd (by rw [hw]; simp) hx
  · cases mid with
    | nil =>
        cases w with
        | nil => exact Or.inl (List.nil_infix)
        | cons y w =>
            rw [List.nil_append, List.cons_append] at hrest
            obtain ⟨rfl, -⟩ := List.cons.inj hrest
            exact absurd (by simp) hx
    | cons y mid =>
        rw [List.cons_append] at hrest
        obtain ⟨-, hb⟩ := List.cons.inj hrest
        exact Or.inr ⟨mid, back, by rw [hb, List.append_assoc]⟩

/-- A name that is read has a dot among any `64` characters. -/
theorem run_le
    (hlabels : ∀ l ∈ labels, l.length ≤ 63) (hw : w <:+: spell labels)
    (hdot : DOT ∉ w) : w.length ≤ 63 := by
  induction labels with
  | nil =>
      have hnil : w = [] := List.infix_nil.mp hw
      simp [hnil]
  | cons l labels ih =>
      rw [spell_cons, List.append_assoc, List.singleton_append] at hw
      rcases infix_of_not_mem hw hdot with hl | hrest
      · exact hl.length_le.trans (hlabels l (by simp))
      · exact ih (fun x hx => hlabels x (List.mem_cons_of_mem l hx)) hrest

theorem toNat_length {l : List Octet} (hlen : l.length ≤ 63) :
    (BitVec.ofNat 8 l.length).toNat = l.length := by
  rw [BitVec.toNat_ofNat]
  omega

theorem ofNat_length_ne {l : List Octet} (hpos : l ≠ []) (hlen : l.length ≤ 63) :
    BitVec.ofNat 8 l.length ≠ 0 := by
  intro hzero
  have hnat := toNat_length hlen
  rw [hzero] at hnat
  have hcons := List.length_pos_iff.mpr hpos
  simp at hnat
  omega

/-- An encoded name is read as its labels, and skipped as a question. -/
theorem encode_read
    (front back : List Octet) (hlabels : ∀ l ∈ labels, l ≠ [] ∧ l.length ≤ 63) :
    Name (front ++ encode labels ++ 0 :: back) front.length
        (front.length + (encode labels).length + 1) labels ∧
      QuestionName (front ++ encode labels ++ 0 :: back) front.length
        (front.length + (encode labels).length + 1) := by
  induction labels generalizing front with
  | nil =>
      have hbyte : (front ++ encode [] ++ 0 :: back)[front.length]? = some 0 := by
        simp [encode]
      exact ⟨.root hbyte, .root hbyte⟩
  | cons l labels ih =>
      obtain ⟨hl, hlen⟩ := hlabels l (by simp)
      have hne := ofNat_length_ne hl hlen
      have hnat := toNat_length hlen
      obtain ⟨hname, hquestion⟩ :=
        ih (front ++ BitVec.ofNat 8 l.length :: l)
          (fun x hx => hlabels x (List.mem_cons_of_mem l hx))
      have hpkt : front ++ encode (l :: labels) ++ 0 :: back =
          front ++ BitVec.ofNat 8 l.length :: l ++ encode labels ++ 0 :: back := by
        simp [encode]
      have hplace : (front ++ BitVec.ofNat 8 l.length :: l).length =
          front.length + (l.length + 1) := by simp
      have hend : front.length + (encode (l :: labels)).length + 1 =
          front.length + (l.length + 1) + (encode labels).length + 1 := by
        simp [encode]
        omega
      rw [hpkt, hend]
      rw [hplace] at hname hquestion
      have hbyte : (front ++ BitVec.ofNat 8 l.length :: l ++ encode labels ++
          0 :: back)[front.length]? = some (BitVec.ofNat 8 l.length) := by
        simp
      constructor
      · have htake : ((front ++ BitVec.ofNat 8 l.length :: l ++ encode labels ++
            0 :: back).drop (front.length + 1)).take
              (BitVec.ofNat 8 l.length).toNat = l := by
          have hdrop : (front ++ BitVec.ofNat 8 l.length :: l ++ encode labels ++
              0 :: back).drop (front.length + 1) =
                l ++ (encode labels ++ 0 :: back) := by
            rw [List.append_assoc, List.append_assoc, List.drop_length_add_append]
            simp
          rw [hnat, hdrop, List.take_left]
        have hcons := Name.label hbyte hne (by omega)
          (by rw [hnat, Nat.add_assoc]; exact hname)
        rwa [htake] at hcons
      · apply QuestionName.label hbyte hne (by omega)
        rw [hnat]
        exact hquestion

end Reading

/-! ## Queries -/

section Queries

variable {header : List Octet}

theorem bldq_spec (dname : List Octet) :
    ((bldq dname).2 = none ↔ DNSDATASIZ ≤ dname.length) ∧
      (dname.length < DNSDATASIZ →
        (bldq dname).1 = (addName dname ⟨[0], 0, 1⟩).1.data ++ [0] ++ [0, 1] ++ [0, 1] ∧
        (bldq dname).1.length = dname.length + 6 ∧
        (bldq dname).2 = some (DATA + (dname.length + 6))) := by
  obtain ⟨hwhole, hlens⟩ := addName_spec (q := ⟨[0], 0, 1⟩) dname rfl
    (by decide)
  unfold bldq
  generalize addName dname ⟨[0], 0, 1⟩ = built at hwhole hlens
  obtain ⟨q, whole⟩ := built
  dsimp only at hwhole hlens ⊢
  cases whole with
  | false =>
      have hlong : ¬ 1 + dname.length ≤ DNSDATASIZ := by
        rw [← hwhole]
        simp
      refine ⟨by simp; omega, ?_⟩
      intro hshort
      omega
  | true =>
      obtain ⟨hdata, hqlen⟩ := hlens rfl
      have hshort := hwhole.mp rfl
      refine ⟨by simp; omega, ?_⟩
      intro _
      refine ⟨rfl, ?_, ?_⟩
      · simp [hdata]
        omega
      · simp [hqlen]
        omega

/-- What `dnslookup` sees of `dns_bldq`. -/
theorem bldq_refused_iff (dname : List Octet) :
    (bldq dname).2 = none ↔ dnsBldq dname = none :=
  (bldq_spec dname).1.trans (Host.dnsBldq_eq_none_iff dname).symm

variable {name : DomainName}

theorem DomainName.spell_eq : spell name.labels = name.text ++ [DOT] :=
  spell_eq_intercalate name.nonempty

theorem DomainName.text_nonul : 0 ∉ name.text := by
  intro hmem
  have hin : (0 : Octet) ∈ spell name.labels := by
    rw [name.spell_eq]
    exact List.mem_append_left _ hmem
  obtain ⟨l, hl, hc⟩ := List.mem_flatMap.mp hin
  rcases List.mem_append.mp hc with hc | hc
  · exact (name.label l hl).2.2 hc
  · exact absurd hc (by decide)

theorem DomainName.label_infix {l : List Octet} (hl : l ∈ name.labels) :
    l <:+: name.text := by
  obtain ⟨hne, hdot, -⟩ := name.label l hl
  obtain ⟨front, back, heq⟩ := List.append_of_mem hl
  have hin : l <:+: name.text ++ DOT :: [] := by
    rw [← name.spell_eq, heq]
    exact ⟨spell front, [DOT] ++ spell back, by simp [spell]⟩
  rcases infix_of_not_mem hin hdot with h | h
  · exact h
  · exact absurd (List.infix_nil.mp h) hne

theorem queryPacket_whole {data : List Octet} {len : ℕ}
    (hheader : header.length = DATA) (hlen : len = DATA + data.length) :
    queryPacket header data len = header ++ data := by
  unfold queryPacket
  rw [List.take_of_length_le]
  rw [List.length_append]
  omega

/-- The bytes of a question that is not refused. -/
theorem bldq_data (hshort : name.text.length < DNSDATASIZ) :
    (bldq name.text).1 = encode name.labels ++ 0 :: [0, 1, 0, 1] := by
  have hencode : (encode name.labels).length = name.text.length + 1 := by
    rw [encode_length, name.spell_eq]
    simp
  have hdata := addName_text [] name.nonempty
    (fun l hl => (name.label l hl).2.1)
    (by rw [List.length_nil]; omega)
  rw [((bldq_spec name.text).2 hshort).1]
  change (addName name.text ⟨[0], 0, 1⟩).1.data = encode name.labels at hdata
  rw [hdata]
  simp

/-- The labels of a question that is read are short. -/
theorem Built.labels_le
    {data : List Octet} {len : ℕ} (h : Built name.text data len) :
    ∀ l ∈ name.labels, l.length ≤ 63 := by
  obtain ⟨fuel, n, out, hrun, hchars, hend⟩ :=
    h.decoded (List.replicate DATA 0) (fun _ => 0) (List.length_replicate ..)
  obtain ⟨q, labels, hname, hlabels, -, -, rfl⟩ := dnsGetrname_sound hrun
  have hsame : strncmpEq name.text (written (fun _ => 0) 0 labels) 0 = true := by
    apply (strncmpEq_iff (l := name.text) name.text_nonul _ _).mpr
    · exact List.prefix_refl _
    · simpa using hchars
    · simpa using hend
  have hprefix := (strncmpEq_written name.text_nonul hlabels).mp hsame
  intro l hl
  apply run_le hname.label_le _ (name.label l hl).2.1
  calc
    l <:+: name.text := name.label_infix hl
    _ <:+: (spell labels).dropLast := hprefix.isInfix
    _ <:+: spell labels := (List.dropLast_prefix _).isInfix

/-- A question with short labels inside the data area is built and read. -/
theorem bldq_built
    (hroom : name.text.length + 6 ≤ DNSDATASIZ)
    (hlabels : ∀ l ∈ name.labels, l.length ≤ 63) :
    Built name.text (bldq name.text).1 (DATA + (name.text.length + 6)) := by
  have hshort : name.text.length < DNSDATASIZ := by omega
  obtain ⟨-, hlength, -⟩ := (bldq_spec name.text).2 hshort
  have hencode : (encode name.labels).length = name.text.length + 1 := by
    rw [encode_length, name.spell_eq]
    simp
  have hpacket : ∀ header : List Octet, header.length = DATA →
      queryPacket header (bldq name.text).1 (DATA + (name.text.length + 6)) =
        header ++ encode name.labels ++ 0 :: [0, 1, 0, 1] := by
    intro header hheader
    rw [queryPacket_whole hheader (by rw [hlength]), bldq_data hshort,
      List.append_assoc]
  have hread := fun header : List Octet => encode_read header [0, 1, 0, 1]
    fun l hl => ⟨(name.label l hl).1, hlabels l hl⟩
  constructor
  · omega
  · rw [hlength]
  · intro header rname hheader
    have hname := (hread header).1
    rw [← hpacket header hheader, hheader] at hname
    obtain ⟨fuel, hrun⟩ := hname.dnsGetrname name.nonempty
      (by rw [name.spell_eq, List.length_append, List.length_singleton]
          unfold RNAMESIZ DNSDATASIZ at *
          omega)
    refine ⟨fuel, _, _, hrun fuel (le_refl _) rname, ?_⟩
    have hstring := written_string rname name.nonempty
    simp only [name.spell_eq, List.dropLast_concat] at hstring
    exact hstring
  · intro header hheader
    have hquestion := (hread header).2
    rw [← hpacket header hheader, hheader] at hquestion
    obtain ⟨fuel, hrun⟩ := hquestion.skipQuestion
    refine ⟨fuel, ?_⟩
    rw [hrun fuel (le_refl _), hencode]
    rfl

/-- A name is refused from `500` characters on; below that the query is right
up to `494` characters, if no label has more than `63`. -/
theorem query_built_iff (name : DomainName) :
    BuiltOrRefused name.text ↔ DNSDATASIZ ≤ name.text.length ∨
      (name.text.length + 6 ≤ DNSDATASIZ ∧
        ∀ l ∈ name.labels, l.length ≤ 63) := by
  obtain ⟨hrefused, hbuilt⟩ := bldq_spec name.text
  constructor
  · intro h
    by_cases hlong : DNSDATASIZ ≤ name.text.length
    · exact Or.inl hlong
    · obtain ⟨-, hlength, hlen⟩ := hbuilt (by omega)
      have hok := h _ hlen
      have hinside := hok.inside
      exact Or.inr ⟨by omega, hok.labels_le⟩
  · rintro (hlong | ⟨hroom, hlabels⟩) len hlen
    · rw [hrefused.mpr hlong] at hlen
      cases hlen
    · rw [(hbuilt (by omega)).2.2] at hlen
      cases hlen
      exact bldq_built hroom hlabels

/-- One label of `64` characters, whose length byte is read as a pointer. -/
def longLabel : DomainName where
  labels := [List.replicate 64 0x61]
  nonempty := by decide
  label := by decide

/-- Eight labels of `61` characters and their dots are `495` characters. -/
def longName : DomainName where
  labels := List.replicate 8 (List.replicate 61 0x61)
  nonempty := by decide
  label := by decide

set_option maxRecDepth 4000 in
theorem long_names_not_built :
    ¬ BuiltOrRefused longLabel.text ∧ ¬ BuiltOrRefused longName.text := by
  constructor
  · intro h
    obtain ⟨-, hlen⟩ := ((bldq_spec longLabel.text).2 (by decide)).2
    have hlabel := (h _ hlen).labels_le (List.replicate 64 0x61) (by decide)
    exact absurd hlabel (by decide)
  · intro h
    obtain ⟨hlength, hlen⟩ := ((bldq_spec longName.text).2 (by decide)).2
    have hinside := (h _ hlen).inside
    rw [hlength] at hinside
    exact absurd hinside (by decide)

end Queries

end Xinu.Dns
