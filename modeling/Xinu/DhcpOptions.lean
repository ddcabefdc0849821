import Mathlib.Data.List.GetD
import Mathlib.Data.List.TakeWhile
import Xinu.UdpClients

/-!
# The options of a DHCP message

A message is well formed when its options area is a list of pads and options
and then the end marker, inside the octets received.  `dhcp_get_opt_val` and
`getlocalip` walk over the area with a length octet behind every key, also
behind a pad and behind the end marker.
-/

namespace Xinu.Dhcp

open ByteMemory Tftp UdpClients

def PAD : Octet := 0
def END : Octet := 255
def SUBNET_MASK : Octet := 1
def ROUTER : Octet := 3
def DNS_SERVER : Octet := 6
def NTP_SERVER : Octet := 42
def REQUESTED_IP : Octet := 50
def MESSAGE_TYPE : Octet := 53
def PARAMETER_REQUEST_LIST : Octet := 55

/-! ## Options areas -/

inductive Item
  | pad
  | opt (key : Octet) (value : List Octet)

namespace Item

def bytes : Item → List Octet
  | pad => [PAD]
  | opt key value => key :: BitVec.ofNat 8 value.length :: value

/-- Pads and the end marker have no length, and a length is one octet. -/
def Valid : Item → Prop
  | pad => True
  | opt key value => key ≠ PAD ∧ key ≠ END ∧ value.length < 256

end Item

def encode : List Item → List Octet
  | [] => []
  | item :: items => item.bytes ++ encode items

/-- Where the options stand, the first item being at `p`. -/
def places : List Item → ℕ → List ℕ
  | [], _ => []
  | .pad :: items, p => places items (p + 1)
  | .opt _ value :: items, p => p :: places items (p + 2 + value.length)

/-- Where the values of the options with a key stand. -/
def valuesOf (key : Octet) : List Item → ℕ → List ℕ
  | [], _ => []
  | .pad :: items, p => valuesOf key items (p + 1)
  | .opt key' value :: items, p =>
      if key' = key then (p + 2) :: valuesOf key items (p + 2 + value.length)
      else valuesOf key items (p + 2 + value.length)

/-- The octets stand in the buffer from `p` on. -/
def Stands (buf : Buffer) : ℕ → List Octet → Prop
  | _, [] => True
  | p, b :: bytes => buf p = b ∧ Stands buf (p + 1) bytes

/-- A well-formed message of which `inlen` octets were received. -/
structure Message where
  buf : Buffer
  inlen : ℤ
  items : List Item
  valid : ∀ item ∈ items, item.Valid
  area : Stands buf DC_OPT (encode items ++ [END])
  inside : (DC_OPT + (encode items).length + 1 : ℤ) ≤ inlen
  fits : inlen ≤ DHCPMSG

namespace Message

variable (m : Message)

def values (key : Octet) : List ℕ := valuesOf key m.items DC_OPT

def endPlace : ℕ := DC_OPT + (encode m.items).length

end Message

/-! ## What the code reads -/

/-- The octets that `dhcp_get_opt_val` looks at on its way. -/
def scanned (buf : Buffer) (key : Octet) : List ℕ → List ℕ
  | [] => []
  | p :: ps => if buf p = key then [p] else p :: (p + 1) :: scanned buf key ps

def getOptReads (buf : Buffer) (size : ℤ) (key : Octet) : List ℕ :=
  scanned buf key (optionsOf buf size)

/-- The octets that a turn of the walk of `getlocalip` looks at. -/
def optionReads (buf : Buffer) (p : ℕ) : List ℕ :=
  if buf p = MESSAGE_TYPE then [p, p + 1, p + 2]
  else if buf p ∈ [SUBNET_MASK, ROUTER, DNS_SERVER, NTP_SERVER] then
    [p, p + 1, p + 2, p + 3, p + 4, p + 5]
  else [p, p + 1]

def walkReads (buf : Buffer) (size : ℤ) : List ℕ :=
  (optionsOf buf size).flatMap (optionReads buf)

/-- What the walk of `getlocalip` has found at its end. -/
def walked (buf : Buffer) (size : ℤ) : Options :=
  (optionsOf buf size).foldl (readOption buf) ⟨0, 0, 0, 0, 0⟩

/-! ## What they should find -/

/-- The five values, each read where the option's value begins. -/
def extract (buf : Buffer) (value : Octet → Option ℕ) (o : Options) : Options where
  msgtype := (value MESSAGE_TYPE).elim o.msgtype buf
  addrmask := (value SUBNET_MASK).elim o.addrmask (ntohl buf)
  routeraddr := (value ROUTER).elim o.routeraddr (ntohl buf)
  dnsaddr := (value DNS_SERVER).elim o.dnsaddr (ntohl buf)
  ntpaddr := (value NTP_SERVER).elim o.ntpaddr (ntohl buf)

/-- Both decoders find the first option with each key, in the octets received;
`sent` is the size with which `getlocalip` asks for the boot server. -/
structure DecodersRight (m : Message) (sent : ℤ) : Prop where
  value : ∀ key, dhcpGetOptVal m.buf m.inlen key = (m.values key).head?
  value_inside : ∀ key, ∀ i ∈ getOptReads m.buf m.inlen key, (i : ℤ) < m.inlen
  walk : walked m.buf m.inlen =
    extract m.buf (fun key => (m.values key).head?) ⟨0, 0, 0, 0, 0⟩
  walk_inside : ∀ i ∈ walkReads m.buf m.inlen, (i : ℤ) < m.inlen
  server : dhcpGetOptVal m.buf sent DHCP_SERVER_ID = (m.values DHCP_SERVER_ID).head?
  server_inside : ∀ i ∈ getOptReads m.buf sent DHCP_SERVER_ID, (i : ℤ) < m.inlen

/-- The messages for which they do. -/
structure Readable (m : Message) (sent : ℤ) : Prop where
  noPad : Item.pad ∉ m.items
  endLast : (m.endPlace : ℤ) + 1 = m.inlen
  repeated : extract m.buf (fun key => (m.values key).head?) ⟨0, 0, 0, 0, 0⟩ =
    extract m.buf (fun key => (m.values key).getLast?) ⟨0, 0, 0, 0, 0⟩
  long : ∀ key ∈ [SUBNET_MASK, ROUTER, DNS_SERVER, NTP_SERVER],
    ∀ p ∈ m.values key, (p : ℤ) + 3 < m.inlen
  server : (m.values DHCP_SERVER_ID).head?.elim (sent ≤ m.inlen) fun p => (p : ℤ) ≤ sent

/-! ## Items in the buffer -/

section Items

variable {buf : Buffer}

theorem stands_append {p : ℕ} (xs ys : List Octet) :
    Stands buf p (xs ++ ys) ↔ Stands buf p xs ∧ Stands buf (p + xs.length) ys := by
  induction xs generalizing p with
  | nil => simp [Stands]
  | cons x xs ih =>
      rw [List.cons_append]
      have hp : p + 1 + xs.length = p + (xs.length + 1) := by omega
      rw [Stands, Stands, ih, and_assoc, List.length_cons, hp]

theorem encode_cons (item : Item) (items : List Item) :
    encode (item :: items) = item.bytes ++ encode items :=
  rfl

theorem stands_opt {p : ℕ} {key : Octet} {value : List Octet} {items : List Item}
    (hvalid : (Item.opt key value).Valid)
    (hstands : Stands buf p (encode (.opt key value :: items) ++ [END])) :
    buf p = key ∧ (buf (p + 1)).toNat = value.length ∧
      Stands buf (p + 2 + value.length) (encode items ++ [END]) := by
  rw [encode_cons, Item.bytes, List.append_assoc, stands_append] at hstands
  obtain ⟨⟨hkey, hlength, -⟩, hrest⟩ := hstands
  refine ⟨hkey, ?_, ?_⟩
  · rw [hlength, BitVec.toNat_ofNat]
    exact Nat.mod_eq_of_lt hvalid.2.2
  · rw [List.length_cons, List.length_cons] at hrest
    have hp : p + 2 + value.length = p + (value.length + 1 + 1) := by omega
    rwa [hp]

theorem encode_append (front rest : List Item) :
    encode (front ++ rest) = encode front ++ encode rest := by
  induction front with
  | nil => rfl
  | cons item front ih =>
      rw [List.cons_append, encode_cons, encode_cons, ih, List.append_assoc]

theorem length_encode_opt (key : Octet) (value : List Octet) (items : List Item) :
    (encode (.opt key value :: items)).length =
      2 + value.length + (encode items).length := by
  rw [encode_cons, Item.bytes, List.length_append, List.length_cons, List.length_cons]
  omega

theorem length_le_encode (items : List Item) :
    items.length ≤ (encode items).length := by
  induction items with
  | nil => exact le_rfl
  | cons item items ih =>
      cases item with
      | pad =>
          rw [encode_cons, Item.bytes, List.length_append, List.length_cons]
          simp only [List.length_cons, List.length_nil]
          omega
      | opt key value =>
          rw [length_encode_opt, List.length_cons]
          omega

theorem options_of_not_lt {eop : ℤ} {fuel p : ℕ} (h : ¬ (p : ℤ) < eop) :
    options buf eop fuel p = [] := by
  cases fuel with
  | zero => rfl
  | succ fuel =>
      unfold options
      rw [if_neg h]

theorem options_of_lt {eop : ℤ} {fuel p : ℕ} (hfuel : 0 < fuel) (h : (p : ℤ) < eop) :
    options buf eop fuel p =
      p :: options buf eop (fuel - 1) (p + 1 + (buf (p + 1)).toNat + 1) := by
  obtain ⟨fuel, rfl⟩ := Nat.exists_eq_add_of_lt hfuel
  rw [Nat.zero_add, options, if_pos h, Nat.add_sub_cancel]

theorem lt_of_mem_options {eop : ℤ} {fuel p q : ℕ}
    (hmem : q ∈ options buf eop fuel p) : (q : ℤ) < eop := by
  induction fuel generalizing p with
  | zero => exact absurd hmem List.not_mem_nil
  | succ fuel ih =>
      unfold options at hmem
      split_ifs at hmem with hlt
      · cases hmem with
        | head => exact hlt
        | tail _ hmem => exact ih hmem
      · exact absurd hmem List.not_mem_nil

/-- Over options without pads the walk keeps to their places; behind them it is
at the next octet. -/
theorem options_plain {eop : ℤ} {items rest : List Item} {fuel p : ℕ}
    (hvalid : ∀ item ∈ items, item.Valid) (hplain : Item.pad ∉ items)
    (hstands : Stands buf p (encode (items ++ rest) ++ [END]))
    (hfuel : items.length ≤ fuel) :
    options buf eop fuel p =
      (places items p).takeWhile (fun q : ℕ => (q : ℤ) < eop) ++
        options buf eop (fuel - items.length) (p + (encode items).length) := by
  induction items generalizing p fuel with
  | nil => rfl
  | cons item items ih =>
      cases item with
      | pad => exact absurd List.mem_cons_self hplain
      | opt key value =>
          rw [List.length_cons] at hfuel
          rw [List.cons_append] at hstands
          obtain ⟨-, hlength, hrest⟩ :=
            stands_opt (hvalid _ List.mem_cons_self) hstands
          rw [length_encode_opt, places]
          by_cases hlt : (p : ℤ) < eop
          · have hnext : p + 1 + (buf (p + 1)).toNat + 1 = p + 2 + value.length := by
              omega
            have hend : p + (2 + value.length + (encode items).length) =
                p + 2 + value.length + (encode items).length := by omega
            have hcount : fuel - (items.length + 1) = fuel - 1 - items.length := by omega
            rw [options_of_lt (by omega) hlt, hnext,
              ih (fun x hx => hvalid x (List.mem_cons_of_mem _ hx))
                (fun hx => hplain (List.mem_cons_of_mem _ hx)) hrest (by omega),
              List.takeWhile_cons, if_pos (decide_eq_true hlt), List.cons_append,
              List.length_cons, hcount, hend]
          · rw [options_of_not_lt hlt, options_of_not_lt (by omega),
              List.takeWhile_cons, if_neg (by rwa [decide_eq_true_iff]),
              List.append_nil]

theorem le_of_mem_places {items : List Item} {p q : ℕ} (hmem : q ∈ places items p) :
    p ≤ q ∧ q + 2 ≤ p + (encode items).length := by
  induction items generalizing p with
  | nil => exact absurd hmem List.not_mem_nil
  | cons item items ih =>
      cases item with
      | pad =>
          have hlen : (encode (.pad :: items)).length = 1 + (encode items).length := by
            rw [encode_cons, Item.bytes, List.length_append, List.length_singleton]
          have hq := ih hmem
          rw [hlen]
          omega
      | opt key value =>
          rw [length_encode_opt]
          cases hmem with
          | head => omega
          | tail _ hmem =>
              have hq := ih hmem
              omega

theorem places_pairwise (items : List Item) (p : ℕ) :
    (places items p).Pairwise (· < ·) := by
  induction items generalizing p with
  | nil => exact List.Pairwise.nil
  | cons item items ih =>
      cases item with
      | pad => exact ih (p + 1)
      | opt key value =>
          apply List.Pairwise.cons
          · intro q hmem
            have hq := le_of_mem_places hmem
            omega
          · exact ih _

theorem valuesOf_eq {items : List Item} {p : ℕ} {key : Octet}
    (hvalid : ∀ item ∈ items, item.Valid)
    (hstands : Stands buf p (encode items ++ [END])) :
    valuesOf key items p =
      ((places items p).filter fun q => buf q = key).map fun q => q + 2 := by
  induction items generalizing p with
  | nil => rfl
  | cons item items ih =>
      have hrest : ∀ item ∈ items, item.Valid :=
        fun x hx => hvalid x (List.mem_cons_of_mem _ hx)
      cases item with
      | pad => exact ih hrest hstands.2
      | opt key' value =>
          obtain ⟨hkey, -, hbehind⟩ := stands_opt (hvalid _ List.mem_cons_self) hstands
          rw [valuesOf, places, List.filter_cons, hkey, ih hrest hbehind]
          by_cases heq : key' = key
          · rw [if_pos heq, if_pos (decide_eq_true heq), List.map_cons]
          · rw [if_neg heq, if_neg (by rwa [decide_eq_true_iff])]

theorem valuesOf_eq_nil {items : List Item} {p : ℕ} {key : Octet}
    (habsent : ∀ value, Item.opt key value ∉ items) : valuesOf key items p = [] := by
  induction items generalizing p with
  | nil => rfl
  | cons item items ih =>
      have hrest : ∀ value, Item.opt key value ∉ items :=
        fun value hmem => habsent value (List.mem_cons_of_mem _ hmem)
      cases item with
      | pad => exact ih hrest
      | opt key' value =>
          have hne : key' ≠ key := by
            rintro rfl
            exact habsent value List.mem_cons_self
          rw [valuesOf, if_neg hne]
          exact ih hrest

end Items

/-! ## Scanning a list of places -/

section Scanning

variable {buf : Buffer} {key : Octet}

theorem exists_of_mem_scanned {l : List ℕ} {i : ℕ} (hmem : i ∈ scanned buf key l) :
    ∃ p ∈ l, i ≤ p + 1 := by
  induction l with
  | nil => exact absurd hmem List.not_mem_nil
  | cons p l ih =>
      unfold scanned at hmem
      split_ifs at hmem with hkey
      · rw [List.mem_singleton] at hmem
        exact ⟨p, List.mem_cons_self, by omega⟩
      · rw [List.mem_cons, List.mem_cons] at hmem
        rcases hmem with rfl | rfl | hmem
        · exact ⟨i, List.mem_cons_self, by omega⟩
        · exact ⟨p, List.mem_cons_self, le_rfl⟩
        · obtain ⟨q, hq, hle⟩ := ih hmem
          exact ⟨q, List.mem_cons_of_mem _ hq, hle⟩

theorem scanned_append {l l' : List ℕ} :
    scanned buf key (l ++ l') =
      if l.find? (fun p => buf p = key) = none then
        scanned buf key l ++ scanned buf key l'
      else scanned buf key l := by
  induction l with
  | nil => rfl
  | cons p l ih =>
      by_cases hkey : buf p = key
      · have hfound : (p :: l).find? (fun p => buf p = key) = some p :=
          List.find?_cons_of_pos (decide_eq_true hkey)
        rw [hfound, List.cons_append, scanned, scanned, if_pos hkey, if_pos hkey,
          if_neg (Option.some_ne_none p)]
      · have hfound : (p :: l).find? (fun p => buf p = key) =
            l.find? fun p => buf p = key :=
          List.find?_cons_of_neg (by rwa [decide_eq_true_iff])
        rw [hfound, List.cons_append, scanned, scanned, if_neg hkey, if_neg hkey, ih]
        split_ifs <;> rfl

theorem find?_takeWhile {l : List ℕ} {q : ℕ} {f : ℕ → Bool} (bound : ℤ)
    (hsorted : l.Pairwise (· < ·)) (hfound : l.find? f = some q) (hq : (q : ℤ) < bound) :
    (l.takeWhile fun p : ℕ => (p : ℤ) < bound).find? f = some q := by
  induction l with
  | nil => exact absurd hfound nofun
  | cons p l ih =>
      obtain ⟨hlt, hsorted⟩ := List.pairwise_cons.mp hsorted
      by_cases hp : f p = true
      · rw [List.find?_cons_of_pos hp] at hfound
        cases hfound
        rw [List.takeWhile_cons, if_pos (decide_eq_true hq), List.find?_cons_of_pos hp]
      · rw [List.find?_cons_of_neg hp] at hfound
        have hpq := hlt q (List.mem_of_find?_eq_some hfound)
        rw [List.takeWhile_cons, if_pos (decide_eq_true (by omega)),
          List.find?_cons_of_neg hp]
        exact ih hsorted hfound

/-- `dhcp_get_opt_val` stays inside the size it is given, whatever the octets. -/
theorem getOptReads_inside {size : ℤ} {i : ℕ}
    (hmem : i ∈ getOptReads buf size key) : (i : ℤ) < size := by
  obtain ⟨p, hp, hle⟩ := exists_of_mem_scanned hmem
  have hlt := lt_of_mem_options hp
  omega

end Scanning

/-! ## The walk of `getlocalip` -/

theorem readOption_eq (buf : Buffer) (o : Options) (p : ℕ) :
    readOption buf o p =
      ⟨if buf p = MESSAGE_TYPE then buf (p + 2) else o.msgtype,
        if buf p = SUBNET_MASK then ntohl buf (p + 2) else o.addrmask,
        if buf p = ROUTER then ntohl buf (p + 2) else o.routeraddr,
        if buf p = DNS_SERVER then ntohl buf (p + 2) else o.dnsaddr,
        if buf p = NTP_SERVER then ntohl buf (p + 2) else o.ntpaddr⟩ := by
  unfold readOption MESSAGE_TYPE SUBNET_MASK ROUTER DNS_SERVER NTP_SERVER
  split_ifs <;> simp_all

/-- What a later place has is kept; otherwise the first place decides. -/
theorem elim_getLast?_cons {α : Type} (buf : Buffer) (key : Octet) (p : ℕ)
    (l : List ℕ) (d : α) (f : ℕ → α) :
    ((((p :: l).filter fun q => buf q = key).map fun q => q + 2).getLast?).elim d f =
      (((l.filter fun q => buf q = key).map fun q => q + 2).getLast?).elim
        (if buf p = key then f (p + 2) else d) f := by
  rw [List.filter_cons]
  by_cases hkey : buf p = key
  · rw [if_pos (decide_eq_true hkey), if_pos hkey, List.map_cons, List.getLast?_cons]
    cases ((l.filter fun q => buf q = key).map fun q => q + 2).getLast? with
    | none => rfl
    | some q => rfl
  · rw [if_neg (by rwa [decide_eq_true_iff]), if_neg hkey]

theorem foldl_readOption (buf : Buffer) (l : List ℕ) (o : Options) :
    l.foldl (readOption buf) o =
      extract buf (fun key =>
        ((l.filter fun q => buf q = key).map fun q => q + 2).getLast?) o := by
  induction l generalizing o with
  | nil => rfl
  | cons p l ih =>
      rw [List.foldl_cons, ih, readOption_eq]
      unfold extract
      dsimp only
      rw [elim_getLast?_cons, elim_getLast?_cons, elim_getLast?_cons,
        elim_getLast?_cons, elim_getLast?_cons]

/-! ## When both decoders are right -/

namespace Message

variable {m : Message} {sent : ℤ}

theorem values_eq (m : Message) (key : Octet) :
    m.values key =
      ((places m.items DC_OPT).filter fun q => m.buf q = key).map fun q => q + 2 :=
  valuesOf_eq m.valid m.area

theorem head?_values (m : Message) (key : Octet) :
    (m.values key).head? =
      ((places m.items DC_OPT).find? fun q => m.buf q = key).map fun q => q + 2 := by
  rw [values_eq, List.head?_map, List.head?_filter]

theorem mem_values {key : Octet} {v : ℕ} :
    v ∈ m.values key ↔ ∃ q ∈ places m.items DC_OPT, m.buf q = key ∧ q + 2 = v := by
  rw [values_eq, List.mem_map]
  simp only [List.mem_filter, decide_eq_true_iff, and_assoc]

theorem values_marker (m : Message) {key : Octet} (hkey : key = PAD ∨ key = END) :
    m.values key = [] := by
  apply valuesOf_eq_nil
  intro value hmem
  have hvalid := m.valid _ hmem
  rcases hkey with rfl | rfl
  · exact hvalid.1 rfl
  · exact hvalid.2.1 rfl

theorem endPlace_le (m : Message) : (m.endPlace : ℤ) + 1 ≤ m.inlen := by
  have hinside := m.inside
  unfold endPlace
  push_cast
  exact hinside

theorem places_lt {q : ℕ} (hmem : q ∈ places m.items DC_OPT) : q + 2 ≤ m.endPlace :=
  (le_of_mem_places hmem).2

theorem buf_endPlace (m : Message) : m.buf m.endPlace = END :=
  ((stands_append _ _).mp m.area).2.1

/-- The walk while there are no pads. -/
theorem optionsOf_front {front rest : List Item} (hitems : m.items = front ++ rest)
    (hplain : Item.pad ∉ front) (size : ℤ) :
    ∃ fuel, 0 < fuel ∧ optionsOf m.buf size =
      (places front DC_OPT).takeWhile (fun q : ℕ => (q : ℤ) < size - 1) ++
        options m.buf (size - 1) fuel (DC_OPT + (encode front).length) := by
  have hcount : front.length < DHCPMSG.toNat := by
    have hlength := length_le_encode m.items
    have hinside := m.inside
    have hfits := m.fits
    rw [hitems, List.length_append] at hlength
    rw [hitems] at hinside
    unfold DHCPMSG at *
    omega
  refine ⟨DHCPMSG.toNat - front.length, by omega, ?_⟩
  apply options_plain
  · intro item hmem
    apply m.valid
    rw [hitems]
    exact List.mem_append_left _ hmem
  · exact hplain
  · rw [← hitems]
    exact m.area
  · exact hcount.le

theorem takeWhile_places {l : List ℕ} {bound : ℤ}
    (hl : ∀ q ∈ l, (q : ℤ) < bound) :
    l.takeWhile (fun q : ℕ => (q : ℤ) < bound) = l := by
  apply List.takeWhile_eq_self_iff.mpr
  exact fun q hq => decide_eq_true (hl q hq)

/-- An octet at which the walk of the whole message stops is no key. -/
theorem ne_of_mem_optionsOf (hright : DecodersRight m sent) {key : Octet} {p : ℕ}
    (hkey : key = PAD ∨ key = END) (hmem : p ∈ optionsOf m.buf m.inlen) :
    m.buf p ≠ key := by
  have hnone := hright.value key
  rw [values_marker m hkey, List.head?_nil, dhcpGetOptVal, Option.map_eq_none_iff,
    List.find?_eq_none] at hnone
  exact fun hbuf => hnone p hmem (decide_eq_true hbuf)

/-- The walk comes to the first pad, and takes it for an option. -/
theorem noPad_of_right (hright : DecodersRight m sent) : Item.pad ∉ m.items := by
  intro hmem
  obtain ⟨front, rest, hitems, hplain⟩ := List.eq_append_cons_of_mem hmem
  obtain ⟨fuel, hfuel, hwalk⟩ := optionsOf_front hitems hplain m.inlen
  have harea := m.area
  rw [hitems] at harea
  rw [encode_append, List.append_assoc, stands_append] at harea
  have hpad : m.buf (DC_OPT + (encode front).length) = PAD := harea.2.1
  have hlt : ((DC_OPT + (encode front).length : ℕ) : ℤ) < m.inlen - 1 := by
    have hinside := m.inside
    rw [hitems, encode_append, List.length_append, encode, List.length_append, Item.bytes,
      List.length_singleton] at hinside
    push_cast at hinside ⊢
    omega
  rw [options_of_lt hfuel hlt] at hwalk
  refine ne_of_mem_optionsOf hright (.inl rfl) ?_ hpad
  rw [hwalk]
  exact List.mem_append_right _ List.mem_cons_self

theorem optionsOf_noPad (hplain : Item.pad ∉ m.items) (size : ℤ) :
    ∃ fuel, 0 < fuel ∧ optionsOf m.buf size =
      (places m.items DC_OPT).takeWhile (fun q : ℕ => (q : ℤ) < size - 1) ++
        options m.buf (size - 1) fuel m.endPlace :=
  optionsOf_front (List.append_nil m.items).symm hplain size

theorem endLast_of_right (hright : DecodersRight m sent) :
    (m.endPlace : ℤ) + 1 = m.inlen := by
  by_contra hne
  have hle := endPlace_le m
  obtain ⟨fuel, hfuel, hwalk⟩ := optionsOf_noPad (noPad_of_right hright) m.inlen
  rw [options_of_lt hfuel (by omega)] at hwalk
  refine ne_of_mem_optionsOf hright (.inr rfl) ?_ (buf_endPlace m)
  rw [hwalk]
  exact List.mem_append_right _ List.mem_cons_self

theorem optionsOf_eq (hplain : Item.pad ∉ m.items)
    (hlast : (m.endPlace : ℤ) + 1 = m.inlen) :
    optionsOf m.buf m.inlen = places m.items DC_OPT := by
  obtain ⟨fuel, -, hwalk⟩ := optionsOf_noPad hplain m.inlen
  rw [hwalk, options_of_not_lt (by omega), List.append_nil, takeWhile_places]
  intro q hq
  have hlt := places_lt hq
  omega

theorem walked_eq (hplain : Item.pad ∉ m.items)
    (hlast : (m.endPlace : ℤ) + 1 = m.inlen) :
    walked m.buf m.inlen =
      extract m.buf (fun key => (m.values key).getLast?) ⟨0, 0, 0, 0, 0⟩ := by
  unfold walked
  rw [optionsOf_eq hplain hlast, foldl_readOption]
  simp only [values_eq]

/-- The walk stays inside just when four octets stand behind each length that it
reads an address behind. -/
theorem walk_inside_iff (hplain : Item.pad ∉ m.items)
    (hlast : (m.endPlace : ℤ) + 1 = m.inlen) :
    (∀ i ∈ walkReads m.buf m.inlen, (i : ℤ) < m.inlen) ↔
      ∀ key ∈ [SUBNET_MASK, ROUTER, DNS_SERVER, NTP_SERVER],
        ∀ p ∈ m.values key, (p : ℤ) + 3 < m.inlen := by
  unfold walkReads
  rw [optionsOf_eq hplain hlast]
  constructor
  · intro hinside key hkey p hp
    obtain ⟨q, hq, hbuf, rfl⟩ := mem_values.mp hp
    have htype : m.buf q ≠ MESSAGE_TYPE := by
      rw [hbuf]
      rintro rfl
      exact absurd hkey (by decide)
    have hread := hinside (q + 5) (List.mem_flatMap.mpr ⟨q, hq, by
      rw [optionReads, if_neg htype, if_pos (by rwa [hbuf])]
      simp⟩)
    push_cast at hread ⊢
    omega
  · intro hlong i hi
    obtain ⟨q, hq, hi⟩ := List.mem_flatMap.mp hi
    have hlt := places_lt hq
    unfold optionReads at hi
    split_ifs at hi with htype haddr
    · simp only [List.mem_cons, List.not_mem_nil, or_false] at hi
      omega
    · have hfour := hlong (m.buf q) haddr (q + 2) (mem_values.mpr ⟨q, hq, rfl, rfl⟩)
      simp only [List.mem_cons, List.not_mem_nil, or_false] at hi
      push_cast at hfour
      omega
    · simp only [List.mem_cons, List.not_mem_nil, or_false] at hi
      omega

/-! ### The boot server -/

theorem find?_takeWhile_eq_none {l : List ℕ} {f : ℕ → Bool} (bound : ℤ)
    (hnone : l.find? f = none) :
    (l.takeWhile fun p : ℕ => (p : ℤ) < bound).find? f = none := by
  apply List.find?_eq_none.mpr
  exact fun p hp => List.find?_eq_none.mp hnone p ((List.takeWhile_sublist _).subset hp)

theorem scanned_places_inside {key : Octet} {i : ℕ} {bound : ℤ}
    (hmem : i ∈ scanned m.buf key
      ((places m.items DC_OPT).takeWhile fun q : ℕ => (q : ℤ) < bound)) :
    (i : ℤ) < m.inlen := by
  obtain ⟨q, hq, hle⟩ := exists_of_mem_scanned hmem
  have hlt := places_lt ((List.takeWhile_sublist _).subset hq)
  have hend := endPlace_le m
  omega

theorem server_found_iff (hplain : Item.pad ∉ m.items) {q : ℕ}
    (hfound : ((places m.items DC_OPT).find? fun q => m.buf q = DHCP_SERVER_ID) = some q) :
    (dhcpGetOptVal m.buf sent DHCP_SERVER_ID = some (q + 2) ∧
      ∀ i ∈ getOptReads m.buf sent DHCP_SERVER_ID, (i : ℤ) < m.inlen) ↔
      ((q + 2 : ℕ) : ℤ) ≤ sent := by
  constructor
  · rintro ⟨hvalue, -⟩
    obtain ⟨q', hq', heq⟩ := Option.map_eq_some_iff.mp hvalue
    have hlt := lt_of_mem_options (List.mem_of_find?_eq_some hq')
    omega
  · intro hle
    obtain ⟨fuel, -, hwalk⟩ := optionsOf_noPad hplain sent
    have hbelow := find?_takeWhile (sent - 1) (places_pairwise _ _) hfound
      (by push_cast at hle; omega)
    constructor
    · rw [dhcpGetOptVal, hwalk, List.find?_append, hbelow]
      rfl
    · intro i hi
      rw [getOptReads, hwalk, scanned_append, hbelow, if_neg (Option.some_ne_none q)] at hi
      exact scanned_places_inside hi

/-- Without one the search has to end inside the message. -/
theorem server_absent_iff (hplain : Item.pad ∉ m.items)
    (hlast : (m.endPlace : ℤ) + 1 = m.inlen)
    (hnone : ((places m.items DC_OPT).find? fun q => m.buf q = DHCP_SERVER_ID) = none) :
    (dhcpGetOptVal m.buf sent DHCP_SERVER_ID = none ∧
      ∀ i ∈ getOptReads m.buf sent DHCP_SERVER_ID, (i : ℤ) < m.inlen) ↔
      sent ≤ m.inlen := by
  obtain ⟨fuel, hfuel, hwalk⟩ := optionsOf_noPad hplain sent
  have hbelow := find?_takeWhile_eq_none (sent - 1) hnone
  constructor
  · rintro ⟨-, hinside⟩
    by_contra hlt
    rw [options_of_lt hfuel (by omega)] at hwalk
    -- The end marker is scanned as an option, with its length behind the message.
    have hread := hinside (m.endPlace + 1) (by
      have hend : m.buf m.endPlace ≠ DHCP_SERVER_ID := by
        rw [buf_endPlace]
        decide
      rw [getOptReads, hwalk, scanned_append, hbelow, if_pos rfl, scanned, if_neg hend]
      simp)
    push_cast at hread
    omega
  · intro hle
    rw [options_of_not_lt (by omega), List.append_nil] at hwalk
    constructor
    · rw [dhcpGetOptVal, hwalk, hbelow]
      rfl
    · intro i hi
      rw [getOptReads, hwalk] at hi
      exact scanned_places_inside hi

theorem server_iff (hplain : Item.pad ∉ m.items)
    (hlast : (m.endPlace : ℤ) + 1 = m.inlen) :
    (dhcpGetOptVal m.buf sent DHCP_SERVER_ID = (m.values DHCP_SERVER_ID).head? ∧
      ∀ i ∈ getOptReads m.buf sent DHCP_SERVER_ID, (i : ℤ) < m.inlen) ↔
      (m.values DHCP_SERVER_ID).head?.elim (sent ≤ m.inlen) fun p => (p : ℤ) ≤ sent := by
  rw [head?_values]
  cases hfind : (places m.items DC_OPT).find? fun q => m.buf q = DHCP_SERVER_ID with
  | none => exact server_absent_iff hplain hlast hfind
  | some q => exact server_found_iff hplain hfind

theorem decodersRight_iff : DecodersRight m sent ↔ Readable m sent := by
  constructor
  · intro hright
    have hplain := noPad_of_right hright
    have hlast := endLast_of_right hright
    have hwalk := hright.walk
    rw [walked_eq hplain hlast] at hwalk
    exact
      { noPad := hplain
        endLast := hlast
        repeated := hwalk.symm
        long := (walk_inside_iff hplain hlast).mp hright.walk_inside
        server := (server_iff hplain hlast).mp ⟨hright.server, hright.server_inside⟩ }
  · intro hreadable
    have hplain := hreadable.noPad
    have hlast := hreadable.endLast
    have hserver := (server_iff hplain hlast).mpr hreadable.server
    exact
      { value := by
          intro key
          rw [dhcpGetOptVal, optionsOf_eq hplain hlast, head?_values]
        value_inside := fun key i hi => getOptReads_inside hi
        walk := (walked_eq hplain hlast).trans hreadable.repeated.symm
        walk_inside := (walk_inside_iff hplain hlast).mpr hreadable.long
        server := hserver.1
        server_inside := hserver.2 }

end Message

/-! ## The messages that are built -/

def put (buf : Buffer) (p : ℕ) (bytes : List Octet) : Buffer := fun i =>
  if p ≤ i ∧ i < p + bytes.length then bytes.getD (i - p) 0 else buf i

/-- The fields before the options; the transaction number is the first four octets
of the hardware address, their order reversed by `htonl`. -/
def dhcpBldBootpMsg (ethucast : ℕ → Octet) : Buffer := fun i =>
  if i = 0 ∨ i = 1 then 1
  else if i = 2 then 6
  else if 4 ≤ i ∧ i < 8 then ethucast (7 - i)
  else if 28 ≤ i ∧ i < 34 then ethucast (i - 28)
  else if 236 ≤ i ∧ i < 240 then [0x63, 0x82, 0x53, 0x63].getD (i - 236) 0
  else 0

/-- The discover message and its length, which is one more than was stored. -/
def dhcpBldDisc (ethucast : ℕ → Octet) : Buffer × ℤ :=
  let opts : List Octet :=
    [MESSAGE_TYPE, 1, 1, PAD, PARAMETER_REQUEST_LIST, 2, 1, 3, END]
  (put (dhcpBldBootpMsg ethucast) DC_OPT opts, DC_OPT + opts.length + 1)

def four (buf : Buffer) (p : ℕ) : List Octet := [buf p, buf (p + 1), buf (p + 2), buf (p + 3)]

/-- The request for an offer, which has to name its server. -/
def dhcpBldReq (ethucast : ℕ → Octet) (offer : Buffer) (size : ℤ) :
    Option (Buffer × ℤ) :=
  let dmsg := put (dhcpBldBootpMsg ethucast) 20 (four offer 20)
  (dhcpGetOptVal offer size DHCP_SERVER_ID).map fun server_ip =>
    let opts := [MESSAGE_TYPE, 1, 3, PAD, REQUESTED_IP, 4] ++ four offer 16 ++
      [DHCP_SERVER_ID, 4] ++ four offer server_ip ++ [END]
    (put dmsg DC_OPT opts, DC_OPT + opts.length + 1)

theorem stands_put (buf : Buffer) (p : ℕ) (bytes : List Octet) :
    Stands (put buf p bytes) p bytes := by
  have hsuffix : ∀ (bytes front : List Octet) (q : ℕ), q = p + front.length →
      Stands (put buf p (front ++ bytes)) q bytes := by
    intro bytes
    induction bytes with
    | nil => exact fun front q hq => trivial
    | cons b bytes ih =>
        intro front q hq
        constructor
        · unfold put
          rw [if_pos]
          · rw [List.getD_append_right _ _ _ _ (by omega), hq, Nat.add_sub_cancel_left,
              Nat.sub_self]
            rfl
          · rw [List.length_append, List.length_cons]
            omega
        · have hnext := ih (front ++ [b]) (q + 1) (by
            rw [List.length_append, List.length_singleton]
            omega)
          rwa [List.append_assoc, List.singleton_append] at hnext
  exact hsuffix bytes [] p rfl

def discItems : List Item :=
  [.opt MESSAGE_TYPE [1], .pad, .opt PARAMETER_REQUEST_LIST [1, 3]]

/-- The options of the request: the address offered and the server's. -/
def reqItems (offer : Buffer) (server_ip : ℕ) : List Item :=
  [.opt MESSAGE_TYPE [3], .pad, .opt REQUESTED_IP (four offer 16),
    .opt DHCP_SERVER_ID (four offer server_ip)]

def discMessage (ethucast : ℕ → Octet) : Message where
  buf := (dhcpBldDisc ethucast).1
  inlen := (dhcpBldDisc ethucast).2
  items := discItems
  valid := by simp [discItems, Item.Valid, MESSAGE_TYPE, PARAMETER_REQUEST_LIST, PAD, END]
  area := stands_put _ _ _
  inside := by
    change (249 : ℤ) ≤ 250
    omega
  fits := by
    change (250 : ℤ) ≤ 1264
    omega

def reqMessage (ethucast : ℕ → Octet) (offer : Buffer) (server_ip : ℕ) : Message where
  buf := put (put (dhcpBldBootpMsg ethucast) 20 (four offer 20)) DC_OPT
    (encode (reqItems offer server_ip) ++ [END])
  inlen := DC_OPT + (encode (reqItems offer server_ip) ++ [END]).length + 1
  items := reqItems offer server_ip
  valid := by
    simp [reqItems, four, Item.Valid, MESSAGE_TYPE, REQUESTED_IP, DHCP_SERVER_ID, PAD, END]
  area := stands_put _ _ _
  inside := by
    rw [List.length_append]
    push_cast
    omega
  fits := by
    change (258 : ℤ) ≤ 1264
    omega

theorem dhcpBldDisc_eq (ethucast : ℕ → Octet) :
    dhcpBldDisc ethucast = ((discMessage ethucast).buf, (discMessage ethucast).inlen) :=
  rfl

theorem dhcpBldReq_eq (ethucast : ℕ → Octet) (offer : Buffer) (size : ℤ) :
    dhcpBldReq ethucast offer size =
      (dhcpGetOptVal offer size DHCP_SERVER_ID).map fun server_ip =>
        ((reqMessage ethucast offer server_ip).buf,
          (reqMessage ethucast offer server_ip).inlen) :=
  rfl

/-- `dhcp_get_opt_val` finds every option that the message has. -/
def FoundByKey (m : Message) : Prop :=
  ∀ key p, (m.values key).head? = some p → dhcpGetOptVal m.buf m.inlen key = some p

/-- The walk of `getlocalip` comes to every option. -/
def FoundByWalk (m : Message) : Prop :=
  ∀ p ∈ places m.items DC_OPT, p ∈ optionsOf m.buf m.inlen

/-- Without pads every option is found, whatever follows the end marker. -/
theorem foundByKey_of_noPad {m : Message} (hplain : Item.pad ∉ m.items) :
    FoundByKey m := by
  intro key p hhead
  rw [Message.head?_values] at hhead
  obtain ⟨q, hq, rfl⟩ := Option.map_eq_some_iff.mp hhead
  obtain ⟨fuel, -, hwalk⟩ := Message.optionsOf_noPad hplain m.inlen
  have hlt := Message.places_lt (List.mem_of_find?_eq_some hq)
  have hend := m.endPlace_le
  have hbelow := find?_takeWhile (m.inlen - 1) (places_pairwise _ _) hq (by omega)
  rw [dhcpGetOptVal, hwalk, List.find?_append, hbelow]
  rfl

section Built

variable {m : Message} {kind key : Octet} {value : List Octet} {rest : List Item}

theorem optionsOf_pad
    (hitems : m.items = .opt MESSAGE_TYPE [kind] :: .pad :: .opt key value :: rest)
    (hshort : m.inlen ≤ 246 + key.toNat) :
    optionsOf m.buf m.inlen = [240, 243] ∧ m.buf 240 = MESSAGE_TYPE ∧
      m.buf 243 = PAD := by
  have harea := m.area
  rw [hitems] at harea
  obtain ⟨htype, -, -, hpad, hkey, -⟩ := harea
  have hinside := m.inside
  rw [hitems, encode, encode, List.length_append, List.length_append, Item.bytes,
    Item.bytes, length_encode_opt] at hinside
  simp only [List.length_cons, List.length_nil, DC_OPT] at hinside
  push_cast at hinside
  have hplain : Item.pad ∉ [Item.opt MESSAGE_TYPE [kind]] := by simp
  have hsplit : m.items =
      [.opt MESSAGE_TYPE [kind]] ++ (.pad :: .opt key value :: rest) := hitems
  obtain ⟨fuel, hfuel, hwalk⟩ := Message.optionsOf_front hsplit hplain m.inlen
  have hlt : ((240 : ℕ) : ℤ) < m.inlen - 1 := by omega
  have hplaces : (places [Item.opt MESSAGE_TYPE [kind]] DC_OPT).takeWhile
      (fun q : ℕ => (q : ℤ) < m.inlen - 1) = [240] := by
    apply Message.takeWhile_places
    intro q hq
    cases hq with
    | head => exact hlt
    | tail _ hq => exact absurd hq List.not_mem_nil
  have hat : DC_OPT + (encode [Item.opt MESSAGE_TYPE [kind]]).length = 243 := rfl
  refine ⟨?_, htype, hpad⟩
  rw [hwalk, hplaces, hat, options_of_lt hfuel (by omega), options_of_not_lt]
  · rfl
  · have hnext : m.buf (243 + 1) = key := hkey
    rw [hnext]
    omega

theorem not_foundByKey
    (hitems : m.items = .opt MESSAGE_TYPE [kind] :: .pad :: .opt key value :: rest)
    (hshort : m.inlen ≤ 246 + key.toNat) (hkey : key ≠ MESSAGE_TYPE) :
    ¬ FoundByKey m := by
  intro hfound
  obtain ⟨hwalk, htype, hpad⟩ := optionsOf_pad hitems hshort
  have hvalid : (Item.opt key value).Valid := by
    apply m.valid
    rw [hitems]
    simp
  have hhead : (m.values key).head? = some 246 := by
    unfold Message.values
    rw [hitems, valuesOf, if_neg hkey.symm, valuesOf, valuesOf, if_pos rfl]
    rfl
  have hvalue := hfound key 246 hhead
  rw [dhcpGetOptVal, hwalk, List.find?_cons_of_neg, List.find?_cons_of_neg] at hvalue
  · exact absurd hvalue nofun
  · rw [decide_eq_true_iff, hpad]
    exact hvalid.1.symm
  · rw [decide_eq_true_iff, htype]
    exact hkey.symm

theorem not_foundByWalk
    (hitems : m.items = .opt MESSAGE_TYPE [kind] :: .pad :: .opt key value :: rest)
    (hshort : m.inlen ≤ 246 + key.toNat) : ¬ FoundByWalk m := by
  intro hfound
  obtain ⟨hwalk, -, -⟩ := optionsOf_pad hitems hshort
  have hplace : 244 ∈ places m.items DC_OPT := by
    rw [hitems]
    exact List.mem_cons_of_mem _ List.mem_cons_self
  have hmem := hfound 244 hplace
  rw [hwalk] at hmem
  exact absurd hmem (by decide)

end Built

/-- The decoders are right for just these messages, and neither finds all the
options of a message that is built here. -/
theorem decoders_right
    (m : Message) (sent : ℤ) (ethucast : ℕ → Octet) (offer : Buffer) (server_ip : ℕ) :
    (DecodersRight m sent ↔ Readable m sent) ∧
      (¬ FoundByKey (discMessage ethucast) ∧ ¬ FoundByWalk (discMessage ethucast)) ∧
      ¬ FoundByKey (reqMessage ethucast offer server_ip) ∧
        ¬ FoundByWalk (reqMessage ethucast offer server_ip) := by
  have hdisc : (discMessage ethucast).inlen ≤ 246 + PARAMETER_REQUEST_LIST.toNat := by
    change (250 : ℤ) ≤ 301
    omega
  have hreq : (reqMessage ethucast offer server_ip).inlen ≤
      246 + REQUESTED_IP.toNat := by
    change (258 : ℤ) ≤ 296
    omega
  constructor
  · exact Message.decodersRight_iff
  constructor
  · exact ⟨not_foundByKey rfl hdisc (by decide), not_foundByWalk rfl hdisc⟩
  · exact ⟨not_foundByKey rfl hreq (by decide), not_foundByWalk rfl hreq⟩

/-- The parameter list of the discover message is not found. -/
theorem parameter_list_lost : ¬ ∀ m sent, DecodersRight m sent := by
  intro hright
  have hvalue := (hright (discMessage fun _ => 0) 250).value PARAMETER_REQUEST_LIST
  exact absurd hvalue (by decide)

end Xinu.Dhcp
