import Cervus.Net.Reassembly

/-! What is sent in fragments arrives whole. -/

namespace Cervus.Net

open Function (update update_idem update_of_ne update_self)
open Cervus.Lib List

/-! ## The header -/

section

variable {src dst proto ttl id frag : Nat} {data : List Byte}

theorem length_ipFillHeader (src dst proto ttl id frag payload : Nat) :
    (ipFillHeader src dst proto ttl id frag payload).length = 20 := rfl

theorem wordSum_checksum (src dst proto ttl id frag payload : Nat) {c : Nat} (hc : c < 65536) :
    let start := [0x45#8, 0#8] ++ be16 (20 + payload) ++ be16 id ++ be16 frag ++
      [BitVec.ofNat 8 ttl, BitVec.ofNat 8 proto]
    let stop := be32 src ++ be32 dst
    wordSum (start ++ be16 c ++ stop) = wordSum (start ++ be16 0 ++ stop) + c ∧
      wordSum (start ++ be16 0 ++ stop) < 2 ^ 31 := by
  simp only [be16, be32, cons_append, nil_append, wordSum, BitVec.toNat_ofNat]
  omega

theorem ipChecksum_ipFillHeader (src dst proto ttl id frag payload : Nat) :
    ipChecksum (ipFillHeader src dst proto ttl id frag payload) = 0 := by
  have h := wordSum_checksum src dst proto ttl id frag payload (c := 0) (by decide)
  simp only at h
  simp only [ipFillHeader]
  generalize hw : wordSum _ = w at h
  have hc : ipChecksum ([0x45#8, 0#8] ++ be16 (20 + payload) ++ be16 id ++ be16 frag ++
      [BitVec.ofNat 8 ttl, BitVec.ofNat 8 proto] ++ be16 0 ++ (be32 src ++ be32 dst)) =
        65535 - foldCarry 4 w := by rw [ipChecksum, hw]
  rw [hc]
  have h' := (wordSum_checksum src dst proto ttl id frag payload
    (c := 65535 - foldCarry 4 w) (by omega)).1
  simp only [hw] at h'
  rw [ipChecksum, h', foldCarry_add_compl h.2]

theorem readHeader_packet (hsrc : src < 2 ^ 32) (hdst : dst < 2 ^ 32) (hproto : proto < 256)
    (hid : id < 65536) : readHeader (ipFillHeader src dst proto ttl id frag data.length ++ data) =
      ⟨20, ⟨src, dst, id, proto⟩, frag % 8192 * 8, decide (frag / 8192 % 2 = 1)⟩ := by
  simp only [readHeader, ipFillHeader, be16, be32, cons_append, nil_append, rd16be, rd32be,
    getD_cons_succ, getD_cons_zero, BitVec.toNat_ofNat, Header.mk.injEq, Key.mk.injEq]
  refine ⟨trivial, ⟨?_, ?_, ?_, ?_⟩, ?_, ?_⟩
  · omega
  · omega
  · omega
  · omega
  · omega
  · congr 1
    apply propext
    omega

theorem ipRx_packet (S : Frags) (dev : Netdev) (now : Nat) (fresh : Option (Nat → Byte))
    (hsrc : src < 2 ^ 32) (hdst : dst < 2 ^ 32) (hproto : proto < 256) (hfrag : frag < 65536)
    (hlen : 20 + data.length < 65536) (hacc : accepts dev dst = true) :
    ipRx S dev (ipFillHeader src dst proto ttl id frag data.length ++ data) now fresh =
      if frag / 8192 % 2 = 1 ∨ frag % 8192 ≠ 0 then
        (ipFragInput S (ipFillHeader src dst proto ttl id frag data.length ++ data) now fresh).map
          fun r => (r.1, r.2.map Delivery.datagram)
      else some (S, some ⟨src, dst, proto, data⟩) := by
  have hcsum := ipChecksum_ipFillHeader src dst proto ttl id frag data.length
  have hhdr := length_ipFillHeader src dst proto ttl id frag data.length
  set pkt := ipFillHeader src dst proto ttl id frag data.length ++ data
  have htake : pkt.take 20 = _ := take_left' hhdr
  have hdrop : pkt.drop 20 = data := drop_left' hhdr
  have h0 : (pkt.getD 0 0).toNat = 69 := rfl
  have h9 : (pkt.getD 9 0).toNat = proto := by
    show (BitVec.ofNat 8 proto).toNat = proto
    simp only [BitVec.toNat_ofNat]
    omega
  have h2 : rd16be pkt 2 = 20 + data.length := (rd16be_be16 _ []).trans (Nat.mod_eq_of_lt hlen)
  have h6 : rd16be pkt 6 = frag := (rd16be_be16 _ []).trans (Nat.mod_eq_of_lt hfrag)
  have h12 : rd32be pkt 12 = src := (rd32be_be32 _ []).trans (Nat.mod_eq_of_lt hsrc)
  have h16 : rd32be pkt 16 = dst := (rd32be_be32 _ []).trans (Nat.mod_eq_of_lt hdst)
  have hl : pkt.length = 20 + data.length := by rw [length_append, hhdr]
  have hall : pkt.take (20 + data.length) = pkt := by rw [← hl, take_length]
  simp only [ipRx, h0, h2, h6, h9, h12, h16, hl, hacc, Nat.reduceMod, Nat.reduceMul, Nat.reduceDiv]
  rw [if_neg (by omega), if_neg (by omega), htake, if_neg (by simp [hcsum]),
    if_neg (by omega : ¬ (20 + data.length < 20 ∨ 20 + data.length < 20 + data.length)), hall,
    hdrop]
  simp

end

/-! ## The fragments of a payload -/

def chunkAt (payload : List Byte) (chunk off : Nat) : List Byte :=
  (payload.drop off).take (min (payload.length - off) chunk)

def fragAt (payload : List Byte) (chunk off : Nat) : Nat :=
  off / 8 + if off + min (payload.length - off) chunk < payload.length then 0x2000 else 0

def Starts (payload : List Byte) (chunk off : Nat) : Prop := chunk ∣ off ∧ off < payload.length

section

variable {payload : List Byte} {chunk : Nat}

theorem length_chunkAt (off : Nat) :
    (chunkAt payload chunk off).length = min (payload.length - off) chunk := by
  rw [chunkAt, length_take, length_drop]
  omega

variable {o off p : Nat} {key : Key}

/-- The packets that the sender makes are those at the multiples of the chunk. -/
theorem mem_sendLoop {mk : Nat → List Byte → List Byte} {tx : Nat → Bool} (hc : 0 < chunk)
    {fuel : Nat} {pkts : List (List Byte)} (hfuel : payload.length ≤ off + fuel)
    (h : sendLoop mk payload chunk tx fuel off = (pkts, true)) (p : List Byte) :
    p ∈ pkts ↔ ∃ k, off + k * chunk < payload.length ∧
      p = mk (fragAt payload chunk (off + k * chunk))
      (chunkAt payload chunk (off + k * chunk)) := by
  induction fuel generalizing off pkts with
  | zero =>
    obtain rfl : [] = pkts := (Prod.mk.inj h).1
    simp only [not_mem_nil, false_iff]
    rintro ⟨k, hk, -⟩
    omega
  | succ fuel ih =>
    rw [sendLoop] at h
    split_ifs at h with hlt htx
    · obtain ⟨rfl, hr⟩ := Prod.mk.inj h
      have hloop : sendLoop mk payload chunk tx fuel (off + chunk) =
          ((sendLoop mk payload chunk tx fuel (off + chunk)).1, true) := Prod.ext rfl hr
      have ih' := ih (by omega) hloop
      rw [mem_cons, ih']
      have hstep : ∀ k, off + chunk + k * chunk = off + (k + 1) * chunk := fun k => by
        rw [Nat.succ_mul]
        omega
      constructor
      · rintro (rfl | ⟨k, hk, rfl⟩)
        · exact ⟨0, by omega, by rw [zero_mul, add_zero]; rfl⟩
        · exact ⟨k + 1, by rw [← hstep]; exact hk, by rw [← hstep]⟩
      · rintro ⟨k, hk, rfl⟩
        cases k with
        | zero => exact .inl (by rw [zero_mul, add_zero]; rfl)
        | succ k => exact .inr ⟨k, by rw [hstep]; exact hk, by rw [hstep]⟩
    · simp at h
    · obtain rfl : [] = pkts := (Prod.mk.inj h).1
      simp only [not_mem_nil, false_iff]
      rintro ⟨k, hk, -⟩
      omega

theorem Starts.unique {o' : Nat} (h : Starts payload chunk o) (h' : Starts payload chunk o')
    (ho : o ≤ p) (hp : p < o + min (payload.length - o) chunk) (ho' : o' ≤ p)
    (hp' : p < o' + min (payload.length - o') chunk) : o = o' := by
  obtain ⟨⟨k, rfl⟩, -⟩ := h
  obtain ⟨⟨k', rfl⟩, -⟩ := h'
  have hk : chunk * k < chunk * (k' + 1) := by rw [Nat.mul_succ]; omega
  have hk' : chunk * k' < chunk * (k + 1) := by rw [Nat.mul_succ]; omega
  have h1 := Nat.lt_of_mul_lt_mul_left hk
  have h2 := Nat.lt_of_mul_lt_mul_left hk'
  rw [show k = k' by omega]

theorem starts_of_lt (payload : List Byte) {chunk : Nat} (hc : 0 < chunk)
    (hp : p < payload.length) :
    ∃ o, Starts payload chunk o ∧ o ≤ p ∧ p < o + min (payload.length - o) chunk := by
  have hdiv := Nat.div_add_mod p chunk
  have hmod := Nat.mod_lt p hc
  exact ⟨chunk * (p / chunk), ⟨Dvd.intro _ rfl, by omega⟩, by omega, by omega⟩

def pieceAt (key : Key) (payload : List Byte) (chunk off : Nat) : Piece :=
  ⟨key, off, chunkAt payload chunk off⟩

theorem stop_pieceAt (key : Key) (off : Nat) :
    (pieceAt key payload chunk off).stop = off + min (payload.length - off) chunk := by
  rw [Piece.stop, pieceAt, length_chunkAt]

theorem byteAt_pieceAt (key : Key) (h1 : off ≤ p)
    (h2 : p < off + min (payload.length - off) chunk) :
    (pieceAt key payload chunk off).byteAt p = payload.getD p 0 := by
  simp only [Piece.byteAt, pieceAt, chunkAt, getD_eq_getElem?_getD]
  rw [List.getElem?_take_of_lt (by omega), List.getElem?_drop, Nat.add_sub_cancel' h1]

/-! ## Gathering -/

/-- Slot `i` holds the fragments that start at `seen`. -/
structure Gathered (S : Frags) (i : Fin fragSlots) (key : Key) (payload : List Byte) (chunk : Nat)
    (seen : List Nat) : Prop where
  used : (S i).used = true
  sameKey : (S i).key = key
  ok : ∃ buf, (S i).buf = some buf ∧ SlotOk (S i) buf
  pieces : (S i).pieces = seen.map (pieceAt key payload chunk)
  starts : ∀ o ∈ seen, Starts payload chunk o
  total : (S i).total = 0 ∨ (S i).total = payload.length
  last : ∀ o ∈ seen, o + min (payload.length - o) chunk = payload.length →
    (S i).total = payload.length

variable {buf : Nat → Byte} {seen : List Nat}

theorem marked_iff {f : Slot} (h : SlotOk f buf)
    (h8 : 8 ∣ chunk) (hp : f.pieces = seen.map (pieceAt key payload chunk))
    (hs : ∀ o ∈ seen, Starts payload chunk o) (u : Nat) :
    f.bmap u = true ↔ ∃ o ∈ seen, o ≤ u * 8 ∧ u * 8 < o + min (payload.length - o) chunk := by
  rw [h.marked, hp]
  simp only [mem_map, exists_exists_and_eq_and, Piece.HasUnit, stop_pieceAt]
  refine exists_congr fun o => and_congr_right fun ho => ?_
  have h8o : 8 ∣ o := h8.trans (hs o ho).1
  have : (pieceAt key payload chunk o).off = o := rfl
  omega

/-- All units are filled exactly when all fragments have come. -/
theorem filled_eq_iff {f : Slot} (h : SlotOk f buf) (hc : 0 < chunk) (h8 : 8 ∣ chunk)
    (hp : f.pieces = seen.map (pieceAt key payload chunk))
    (hs : ∀ o ∈ seen, Starts payload chunk o) :
    f.filled = (payload.length + 7) / 8 ↔ ∀ o, Starts payload chunk o → o ∈ seen := by
  obtain ⟨s, hcard, hm⟩ := h.marks
  have hmark := marked_iff h h8 hp hs
  have hsub : s ⊆ Finset.range ((payload.length + 7) / 8) := by
    intro u hu
    obtain ⟨o, ho, -, hlt⟩ := (hmark u).mp ((hm u).mpr hu)
    have := (hs o ho).2
    rw [Finset.mem_range]
    omega
  constructor
  · intro hf o ho
    have heq := Finset.eq_of_subset_of_card_le hsub (by rw [← hcard, hf, Finset.card_range])
    have h8o : 8 ∣ o := h8.trans ho.1
    have hlt := ho.2
    have hmem : o / 8 ∈ s := by
      rw [heq, Finset.mem_range]
      omega
    obtain ⟨o', ho', h1, h2⟩ := (hmark _).mp ((hm _).mpr hmem)
    rw [Nat.div_mul_cancel h8o] at h1 h2
    rwa [Starts.unique ho (hs o' ho') le_rfl (by omega) h1 h2]
  · intro hall
    have heq : s = Finset.range ((payload.length + 7) / 8) := by
      refine Finset.Subset.antisymm hsub fun u hu => (hm u).mp ((hmark u).mpr ?_)
      rw [Finset.mem_range] at hu
      obtain ⟨o, ho, h1, h2⟩ := starts_of_lt payload hc (show u * 8 < payload.length by omega)
      exact ⟨o, hall o ho, h1, h2⟩
    rw [hcard, heq, Finset.card_range]

/-- One more fragment: it completes the datagram, or is added to what was seen. -/
theorem Gathered.step {S : Frags} {i : Fin fragSlots} {pkt : List Byte}
    (h : Gathered S i key payload chunk seen) (hc : 0 < chunk) (h8 : 8 ∣ chunk)
    (hlen : payload.length ≤ 65515) (ho : Starts payload chunk o)
    (hdata : pkt.drop 20 = chunkAt payload chunk o) :
    let hdr : Header :=
      ⟨20, key, o, decide (o + min (payload.length - o) chunk < payload.length)⟩
    ((∃ o', Starts payload chunk o' ∧ o' ∉ o :: seen) →
      ∃ f, fragAccept S i hdr pkt = some (update S i f, none) ∧
        Gathered (update S i f) i key payload chunk (o :: seen)) ∧
    ((∀ o', Starts payload chunk o' → o' ∈ o :: seen) →
      ∃ S' D, fragAccept S i hdr pkt = some (S', some D) ∧
        D.datagram = ⟨key.src, key.dst, key.proto, payload⟩) := by
  intro hdr
  obtain ⟨buf, hbuf, hok⟩ := h.ok
  have hdlen : (pkt.drop hdr.ihl).length = min (payload.length - o) chunk := by
    rw [hdata, length_chunkAt]
  have hlt := ho.2
  have h8o : 8 ∣ o := h8.trans ho.1
  have hmore : hdr.more = true ↔ o + min (payload.length - o) chunk < payload.length :=
    decide_eq_true_iff
  obtain ⟨f, buf', hok', hbuf', hused', hkey', htot', hpieces', he⟩ :=
    fragAccept_eq (h := hdr) pkt hbuf hok h.sameKey (show 20 ≤ 60 by decide) h8o
      (by rw [hdlen]; show o + _ ≤ 65535; omega)
      (fun hm => by rw [hdlen]; have := hmore.mp hm; omega)
      (fun hm => by
        have : ¬ (o + min (payload.length - o) chunk < payload.length) := fun hc => by
          rw [hmore.mpr hc] at hm
          simp at hm
        show _ ∨ _ = o + _
        rcases h.total with h0 | h1
        · exact .inl h0
        · right; omega)
  have hp : f.pieces = (o :: seen).map (pieceAt key payload chunk) := by
    rw [hpieces', h.pieces]
    rw [hdata]
    rfl
  have hs : ∀ o' ∈ o :: seen, Starts payload chunk o' := forall_mem_cons.mpr ⟨ho, h.starts⟩
  have htotal : f.total = (S i).total ∧ hdr.more = true ∨ f.total = payload.length := by
    rw [htot']
    split_ifs with hm
    · exact .inl ⟨rfl, hm⟩
    · right
      rw [hmore] at hm
      show o + _ = _
      omega
  have hlast : ∀ o' ∈ o :: seen, o' + min (payload.length - o') chunk = payload.length →
      f.total = payload.length := by
    intro o' ho' he'
    rcases htotal with ⟨ht, hm⟩ | ht
    · rcases mem_cons.mp ho' with rfl | ho'
      · have := hmore.mp hm
        omega
      · exact ht.trans (h.last o' ho' he')
    · exact ht
  have hfill := filled_eq_iff hok' hc h8 hp hs
  constructor
  · rintro ⟨o', ho', hn⟩
    have hnot : ¬ (f.total ≠ 0 ∧ f.filled = (f.total + 7) / 8) := by
      rintro ⟨h0, hf⟩
      have ht : f.total = payload.length := by
        rcases htotal with ⟨ht, -⟩ | ht
        · exact ht.trans (h.total.resolve_left fun e => h0 (ht.trans e))
        · exact ht
      rw [ht] at hf
      exact hn (hfill.mp hf o' ho')
    rw [if_neg hnot] at he
    refine ⟨f, he, ?_⟩
    constructor
    · rw [update_self, hused', h.used]
    · rw [update_self, hkey']
    · rw [update_self]; exact ⟨buf', hbuf', hok'⟩
    · rw [update_self, hp]
    · exact hs
    · rw [update_self]
      rcases htotal with ⟨ht, -⟩ | ht
      · rw [ht]; exact h.total
      · exact .inr ht
    · rw [update_self]; exact hlast
  · intro hall
    -- the last byte of the payload is in a fragment that was seen, so the total is known
    obtain ⟨ol, hol, h1, h2⟩ :=
      starts_of_lt payload hc (show payload.length - 1 < payload.length by omega)
    have ht : f.total = payload.length := hlast ol (hall ol hol) (by have := hol.2; omega)
    have hdone : f.total ≠ 0 ∧ f.filled = (f.total + 7) / 8 := by
      rw [ht]
      exact ⟨by omega, hfill.mpr hall⟩
    rw [if_pos hdone] at he
    refine ⟨_, _, he, ?_⟩
    have hwithin : Within f.pieces f.total := by
      intro q hq
      rw [hp] at hq
      obtain ⟨o', ho', rfl⟩ := mem_map.mp hq
      have := (hs o' ho').2
      rw [stop_pieceAt, ht]
      omega
    have hno := (hok'.noHoles_iff hdone.2).mpr hwithin
    have hbytes : (range f.total).map buf' = payload := by
      rw [ht] at hno ⊢
      refine ext_getElem (by simp) fun p hp1 hp2 => ?_
      obtain ⟨q, hq, hcov, hv⟩ := hno p hp2
      rw [hp] at hq
      obtain ⟨o', ho', rfl⟩ := mem_map.mp hq
      have hstart : o' ≤ p := hcov.1
      have hstop := hcov.2
      rw [stop_pieceAt] at hstop
      rw [getElem_map, getElem_range, hv, byteAt_pieceAt key hstart hstop,
        getD_eq_getElem _ _ hp2]
    show Datagram.mk key.src key.dst key.proto ((range f.total).map buf') = _
    rw [hbytes]

end

/-! ## Slots -/

theorem slotFind_update {S : Frags} {k : Key} {i : Fin fragSlots} {f : Slot}
    (h : slotFind S k = some i) (hu : f.used = true) (hk : f.key = k) :
    slotFind (update S i f) k = some i := by
  obtain ⟨h1, h2⟩ := slotFind_some h
  rw [← h, slotFind, slotFind]
  congr 1
  funext j
  by_cases hj : j = i
  · subst hj
    simp [hu, hk, h1, h2]
  · rw [update_of_ne hj]

theorem slotFind_update_new {S : Frags} {k : Key} {i : Fin fragSlots} {f : Slot}
    (h : slotFind S k = none) (hu : f.used = true) (hk : f.key = k) :
    slotFind (update S i f) k = some i := by
  cases he : slotFind (update S i f) k with
  | none => simpa [hu, hk] using List.find?_eq_none.mp he i (mem_finRange i)
  | some j =>
    obtain ⟨h1, h2⟩ := slotFind_some he
    by_cases hj : j = i
    · rw [hj]
    · rw [update_of_ne hj] at h1 h2
      have := List.find?_eq_none.mp h j (mem_finRange j)
      simp [h1, h2] at this

theorem slotClaim_isSome (S : Frags) (now : Nat) {fresh : Option (Nat → Byte)}
    (h : fresh.isSome = true) : (slotClaim S now fresh).isSome = true := by
  obtain ⟨b, rfl⟩ := Option.isSome_iff_exists.mp h
  unfold slotClaim
  split
  · rename_i i _
    cases (S i).buf with
    | none | some b' => rfl
  · rfl

/-! ## The round trip -/

structure Arrival where
  pkt : List Byte
  now : Nat
  fresh : Option (Nat → Byte)

def feed (dev : Netdev) : Frags → List Arrival → Option (Frags × List (Option Datagram))
  | S, [] => some (S, [])
  | S, a :: l => do
    let (S, d) ← ipRx S dev a.pkt a.now a.fresh
    let (S, ds) ← feed dev S l
    some (S, d :: ds)

section

variable {payload : List Byte} {chunk src dst proto ttl id : Nat}

def packetAt (payload : List Byte) (chunk src dst proto ttl id off : Nat) : List Byte :=
  ipFillHeader src dst proto ttl id (fragAt payload chunk off)
    (chunkAt payload chunk off).length ++ chunkAt payload chunk off

theorem drop_packetAt (payload : List Byte) (chunk src dst proto ttl id off : Nat) :
    (packetAt payload chunk src dst proto ttl id off).drop 20 = chunkAt payload chunk off := by
  rw [packetAt, drop_left' (length_ipFillHeader ..)]

/-- What `ip_send` has seen to when it cuts a payload into fragments. -/
structure Cut (payload : List Byte) (chunk src dst proto id : Nat) : Prop where
  src : src < 2 ^ 32
  dst : dst < 2 ^ 32
  proto : proto < 256
  id : id < 65536
  dvd : 8 ∣ chunk
  pos : 0 < chunk
  len : payload.length ≤ 65515

variable {off : Nat} {dev : Netdev} {S : Frags} {seen : List Nat}

/-- The datagram `key` has a slot with the fragments at `seen`, or none yet. -/
def Ready (S : Frags) (key : Key) (payload : List Byte) (chunk : Nat) (seen : List Nat) : Prop :=
  (∃ i, slotFind S key = some i ∧ Gathered S i key payload chunk seen) ∨
    slotFind S key = none ∧ seen = [] ∧ FragsOk S

theorem gathered_claimed {i : Fin fragSlots} (key : Key) (now : Nat) (buf : Nat → Byte) :
    Gathered (update S i { (S i).claimed now (some buf) with key := key }) i key payload
      chunk [] := by
  have hc := claimed_ok (S i) now buf
  constructor
  · rw [update_self]; rfl
  · rw [update_self]
  · rw [update_self]
    refine ⟨buf, rfl, hc.marks, hc.marked, hc.aligned, hc.size, ?_, hc.bytes, hc.top⟩
    simp [Slot.claimed, Slot.reset]
  · rw [update_self]; rfl
  · simp
  · rw [update_self]; exact .inl rfl
  · simp

section

variable (hp : Cut payload chunk src dst proto id)

include hp

section

variable (ho : Starts payload chunk off)

include ho

theorem Cut.spec : 8 ∣ off ∧ fragAt payload chunk off % 8192 * 8 = off ∧
      (fragAt payload chunk off / 8192 % 2 = 1 ↔
      off + min (payload.length - off) chunk < payload.length) ∧
      fragAt payload chunk off < 65536 := by
  have h8 : 8 ∣ off := hp.dvd.trans ho.1
  have hlen := hp.len
  have hlt := ho.2
  refine ⟨h8, ?_⟩
  unfold fragAt
  split_ifs with h
  · refine ⟨by omega, ⟨fun _ => h, fun _ => by omega⟩, by omega⟩
  · refine ⟨by omega, ⟨fun hc => by omega, fun hc => absurd hc h⟩, by omega⟩

theorem Cut.header (ttl : Nat) :
    readHeader (packetAt payload chunk src dst proto ttl id off) = ⟨20, ⟨src, dst, id, proto⟩, off,
      decide (off + min (payload.length - off) chunk < payload.length)⟩ := by
  obtain ⟨-, h1, h2, -⟩ := hp.spec ho
  rw [packetAt, readHeader_packet hp.src hp.dst hp.proto hp.id, h1]
  simp only [h2]

theorem ipFragInput_packetAt (S : Frags) (now : Nat) (fresh : Option (Nat → Byte)) :
    let hdr : Header := ⟨20, ⟨src, dst, id, proto⟩, off,
      decide (off + min (payload.length - off) chunk < payload.length)⟩
    let pkt := packetAt payload chunk src dst proto ttl id off
    ipFragInput S pkt now fresh =
      match slotFind S hdr.key with
      | some i => fragAccept S i hdr pkt
      | none =>
        match slotClaim S now fresh with
        | none => some (S, none)
        | some (S, i) => fragAccept (update S i { S i with key := hdr.key }) i hdr pkt := by
  intro hdr pkt
  have hlt := ho.2
  have hlen := hp.len
  have h8 := hp.dvd
  have hc := hp.pos
  have h8o := (hp.spec ho).1
  have hpl : pkt.length = 20 + min (payload.length - off) chunk := by
    show (packetAt payload chunk src dst proto ttl id off).length = _
    rw [packetAt, length_append, length_ipFillHeader, length_chunkAt]
  have hread : readHeader pkt = hdr := hp.header ho ttl
  have hmore : hdr.more = true ↔ off + min (payload.length - off) chunk < payload.length :=
    decide_eq_true_iff
  have hihl : hdr.ihl = 20 := rfl
  have hoff : hdr.off = off := rfl
  have hwhole : ¬ (hdr.more = true ∧ min (payload.length - off) chunk % 8 ≠ 0) := by
    rintro ⟨hm, hmod⟩
    have := hmore.mp hm
    omega
  simp only [ipFragInput, hread, hihl, hoff, hpl, fragMaxlen, Nat.add_sub_cancel_left]
  rw [if_neg (by omega), if_neg (by omega), if_neg (by omega)]
  exact if_neg hwhole

theorem ipRx_packetAt (hfrag : chunk < payload.length) (hacc : accepts dev dst = true) (S : Frags)
    (now : Nat) (fresh : Option (Nat → Byte)) :
    ipRx S dev (packetAt payload chunk src dst proto ttl id off) now fresh =
      (ipFragInput S (packetAt payload chunk src dst proto ttl id off) now fresh).map
        fun r => (r.1, r.2.map Delivery.datagram) := by
  have hlt := ho.2
  have hlen := hp.len
  obtain ⟨-, h1, h2, h3⟩ := hp.spec ho
  rw [packetAt, ipRx_packet S dev now fresh hp.src hp.dst hp.proto h3
    (by rw [length_chunkAt]; omega) hacc,
    if_pos]
  by_cases h0 : off = 0
  · left; omega
  · right; omega

end

/-- The packet determines the offset. -/
theorem Cut.inj {o : Nat} (ho : Starts payload chunk o)
    (hoff : Starts payload chunk off) (h : packetAt payload chunk src dst proto ttl id o =
      packetAt payload chunk src dst proto ttl id off) : o = off := by
  have hh := hp.header ho ttl
  rw [h, hp.header hoff, Header.mk.injEq] at hh
  exact hh.2.2.1.symm

theorem Ready.step (ttl : Nat) {o : Nat} (h : Ready S ⟨src, dst, id, proto⟩ payload chunk seen)
    (ho : Starts payload chunk o) (now : Nat) {fresh : Option (Nat → Byte)}
    (hfresh : fresh.isSome = true) :
    ((∃ o', Starts payload chunk o' ∧ o' ∉ o :: seen) →
      ∃ S', ipFragInput S (packetAt payload chunk src dst proto ttl id o) now fresh =
          some (S', none) ∧ Ready S' ⟨src, dst, id, proto⟩ payload chunk (o :: seen)) ∧
    ((∀ o', Starts payload chunk o' → o' ∈ o :: seen) →
      ∃ S' D, ipFragInput S (packetAt payload chunk src dst proto ttl id o) now fresh =
          some (S', some D) ∧ D.datagram = ⟨src, dst, proto, payload⟩) := by
  -- in both cases the fragment goes to a slot that holds what was seen
  obtain ⟨S₀, i, hfind, hg, hrun⟩ : ∃ S₀ i, slotFind S₀ ⟨src, dst, id, proto⟩ = some i ∧
      Gathered S₀ i ⟨src, dst, id, proto⟩ payload chunk seen ∧
      ipFragInput S (packetAt payload chunk src dst proto ttl id o) now fresh =
        fragAccept S₀ i ⟨20, ⟨src, dst, id, proto⟩, o,
          decide (o + min (payload.length - o) chunk < payload.length)⟩
          (packetAt payload chunk src dst proto ttl id o) := by
    rw [ipFragInput_packetAt hp ho]
    rcases h with ⟨i, hfind, hg⟩ | ⟨hfind, rfl, hS⟩
    · exact ⟨S, i, hfind, hg, by simp only [hfind]⟩
    · obtain ⟨⟨S', i⟩, hclaim⟩ := Option.isSome_iff_exists.mp (slotClaim_isSome S now hfresh)
      obtain ⟨buf, rfl⟩ := slotClaim_some hS hclaim
      simp only [hfind, hclaim, update_self, update_idem]
      exact ⟨_, i, slotFind_update_new hfind rfl rfl, gathered_claimed _ now buf, rfl⟩
  have hstep := hg.step hp.pos hp.dvd hp.len ho
    (drop_packetAt payload chunk src dst proto ttl id o)
  rw [hrun]
  refine ⟨fun hmiss => ?_, fun hall => hstep.2 hall⟩
  obtain ⟨f, he, hg'⟩ := hstep.1 hmiss
  refine ⟨_, he, .inl ⟨i, slotFind_update hfind ?_ ?_, hg'⟩⟩
  · simpa using hg'.used
  · simpa using hg'.sameKey

/-- The fragments in any order, the last one new: the datagram is delivered. -/
theorem feed_fragments (hfrag : chunk < payload.length) (hacc : accepts dev dst = true)
    {order : List Arrival} {last : Arrival} {ol : Nat}
    (h : Ready S ⟨src, dst, id, proto⟩ payload chunk seen)
    (hfresh : ∀ a ∈ order ++ [last], a.fresh.isSome = true)
    (horder : ∀ a ∈ order, ∃ o, Starts payload chunk o ∧ o ≠ ol ∧
    a.pkt = packetAt payload chunk src dst proto ttl id o)
    (hol : Starts payload chunk ol)
    (hlast : last.pkt = packetAt payload chunk src dst proto ttl id ol) (hseen : ol ∉ seen)
    (hall : ∀ o, Starts payload chunk o → o ≠ ol → o ∈ seen ∨
    ∃ a ∈ order, a.pkt = packetAt payload chunk src dst proto ttl id o) :
    ∃ S', feed dev S (order ++ [last]) = some (S', replicate order.length none ++
      [some ⟨src, dst, proto, payload⟩]) := by
  induction order generalizing S seen with
  | nil =>
    have hstep := (h.step hp ttl hol last.now (hfresh last (by simp))).2
    obtain ⟨S', D, he, hD⟩ := hstep fun o ho => by
      by_cases he : o = ol
      · simp [he]
      · have := (hall o ho he).resolve_right (by simp)
        simp [this]
    refine ⟨S', ?_⟩
    simp only [nil_append, feed, hlast, ipRx_packetAt hp hol hfrag hacc, he, Option.map_some, hD,
      Option.bind_eq_bind, Option.bind_some, length_nil, replicate_zero]
  | cons a order ih =>
    obtain ⟨o, ho, hne, hpkt⟩ := horder a (by simp)
    obtain ⟨S₁, he, hready⟩ := (h.step hp ttl ho a.now (hfresh a (by simp))).1
      ⟨ol, hol, by simp [hseen, Ne.symm hne]⟩
    obtain ⟨S', hfeed⟩ := ih hready (fun b hb => hfresh b (by simp at hb ⊢; tauto))
      (fun b hb => horder b (by simp [hb])) (by simp [hseen, Ne.symm hne]) (fun o' ho' hne' => by
        rcases hall o' ho' hne' with hs | ⟨b, hb, hbp⟩
        · exact .inl (by simp [hs])
        · rcases mem_cons.mp hb with rfl | hb
          · simp [hp.inj ho' ho (hbp.symm.trans hpkt)]
          · exact .inr ⟨b, hb, hbp⟩)
    refine ⟨S', ?_⟩
    simp only [cons_append, feed, hpkt, ipRx_packetAt hp ho hfrag hacc, he, Option.map_some,
      Option.map_none,
      Option.bind_eq_bind, Option.bind_some, hfeed, length_cons, replicate_succ]

end

end

/-- Whatever `ip_send` hands to the device, received in any order and with repetitions
until the last missing packet comes in, is delivered once and as it was sent. -/
theorem fragment_roundtrip (env : NetEnv) (dev : Option Netdev) (dst : BitVec 32) (proto ttl : Byte)
    (payload : List Byte) (id : BitVec 16) (mem : Bool) (tx : Nat → Bool) (rcv : Netdev)
    (order : List Arrival) (last : Arrival) {out : Netdev} {src : BitVec 32}
    {pkts : List (List Byte)} {S : Frags}
    (hpos : 1 ≤ payload.length) (htarget : sendTarget env dev dst = some (out, src))
    (hsend : ipSend env dev dst proto payload ttl id mem tx = some (pkts, true))
    (hacc : accepts rcv dst.toNat = true) (hreach : FragReach S)
    (hfree : slotFind S ⟨src.toNat, dst.toNat, id.toNat, proto.toNat⟩ = none)
    (hfresh : ∀ a ∈ order ++ [last], a.fresh.isSome = true)
    (hsub : ∀ a ∈ order ++ [last], a.pkt ∈ pkts)
    (hall : ∀ p ∈ pkts, ∃ a ∈ order ++ [last], a.pkt = p)
    (hlast : ∀ a ∈ order, a.pkt ≠ last.pkt) :
    ∃ S', feed rcv S (order ++ [last]) = some (S', replicate order.length none ++
      [some ⟨src.toNat, dst.toNat, proto.toNat, payload⟩]) := by
  have hbig : ¬ 65515 < payload.length := fun hc => by simp [ipSend, hc] at hsend
  simp only [ipSend, htarget, if_neg hbig] at hsend
  generalize (20 + if payload.length + 20 ≤ sendMtu out then payload.length
    else (sendMtu out - 20) / 8 * 8) = want at hsend
  split_ifs at hsend with hmem hone
  · -- one packet, delivered by the direct path
    obtain ⟨rfl, -⟩ := Prod.mk.inj (Option.some.inj hsend)
    have hpl : last.pkt = ipFillHeader src.toNat dst.toNat proto.toNat ttl.toNat id.toNat 0
        payload.length ++ payload := by simpa using hsub last (by simp)
    obtain rfl : order = [] := by
      refine eq_nil_iff_forall_not_mem.mpr fun a ha => hlast a ha ?_
      rw [hpl]
      simpa using hsub a (by simp [ha])
    refine ⟨S, ?_⟩
    have hlen : 20 + payload.length < 65536 := by omega
    simp only [nil_append, feed, hpl,
      ipRx_packet S rcv last.now last.fresh src.isLt dst.isLt proto.isLt
      (by decide : 0 < 65536) hlen
        hacc, Option.bind_eq_bind, Option.bind_some, length_nil, replicate_zero]
    rfl
  · have hmtu : 68 ≤ sendMtu out ∧ sendMtu out ≤ 65535 := by
      simp only [sendMtu]
      omega
    generalize hchunk : (sendMtu out - 20) / 8 * 8 = chunk at hsend
    have hc : 0 < chunk := by omega
    have h8 : 8 ∣ chunk := hchunk ▸ Dvd.intro_left _ rfl
    have hmem := mem_sendLoop hc (by omega) (Option.some.inj hsend)
    have hpkt : ∀ p, p ∈ pkts ↔ ∃ o, Starts payload chunk o ∧
        p = packetAt payload chunk src.toNat dst.toNat proto.toNat ttl.toNat id.toNat o := by
      intro p
      rw [hmem p]
      constructor
      · rintro ⟨k, hk, rfl⟩
        exact ⟨0 + k * chunk, ⟨by simp, hk⟩, rfl⟩
      · rintro ⟨o, ⟨⟨k, rfl⟩, hlt⟩, rfl⟩
        rw [mul_comm] at hlt ⊢
        exact ⟨k, by omega, by rw [zero_add]; rfl⟩
    obtain ⟨ol, hol, hlp⟩ := (hpkt _).mp (hsub last (by simp))
    have hcut : Cut payload chunk src.toNat dst.toNat proto.toNat id.toNat :=
      ⟨src.isLt, dst.isLt, proto.isLt, id.isLt, h8, hc, by omega⟩
    refine feed_fragments hcut (by omega) hacc
      (.inr ⟨hfree, rfl, hreach.ok⟩) hfresh (fun a ha => ?_) hol hlp (by simp) (fun o ho hne => ?_)
    · obtain ⟨o, ho, hp⟩ := (hpkt _).mp (hsub a (by simp [ha]))
      refine ⟨o, ho, ?_, hp⟩
      rintro rfl
      exact hlast a ha (hp.trans hlp.symm)
    · right
      obtain ⟨a, ha, hap⟩ := hall _ ((hpkt _).mpr ⟨o, ho, rfl⟩)
      rcases mem_append.mp ha with ha | ha
      · exact ⟨a, ha, hap⟩
      · exfalso
        rw [mem_singleton.mp ha, hlp] at hap
        exact hne (hcut.inj ho hol hap.symm)

def smallDev (host : BitVec 32) : Netdev := ⟨0x0a000000 + host, 0xffffff00, 0, 68⟩

def oneLink : NetEnv := ⟨[], none, fun _ => none, fun _ => true⟩

def shortPayload : List Byte := (range 49).map (BitVec.ofNat 8)

def shortPackets : List (List Byte) × Bool :=
  (ipSend oneLink (some (smallDev 1)) 0x0a000002 17 shortPayload 64 7 true fun _ => true).getD
    ([], false)

def shortArrival (k : Nat) : Arrival := ⟨shortPackets.1.getD k [], 0, some fun _ => 0xee⟩

theorem fragment_roundtrip_reordered :
    ∃ S', feed (smallDev 2) fragInit ([shortArrival 1, shortArrival 1] ++ [shortArrival 0]) =
      some (S', [none, none, some ⟨0x0a000001, 0x0a000002, 17, shortPayload⟩]) := by
  have hpkts : shortPackets = ([(shortArrival 0).pkt, (shortArrival 1).pkt], true) := by
    decide +kernel
  exact fragment_roundtrip oneLink (some (smallDev 1)) 0x0a000002 17 64 shortPayload 7 true
    (fun _ => true) (smallDev 2) [shortArrival 1, shortArrival 1] (shortArrival 0)
    (by decide) rfl (show _ = some (shortPackets.1, true) by decide +kernel) (by decide) .init
    (by decide +kernel) (by simp [shortArrival]) (by simp [hpkts]) (by simp [hpkts])
    (by simp; decide +kernel)

end Cervus.Net
