import Mathlib.Data.List.GetD
import DiscoBsd.Slip.Checksum

/-!
# What is emitted is accepted

`ip_send`, `send_seg` and `icmp_input` fill in lengths and checksums; `ip_input`, `tcp_input` and
`icmp_input` test them. `packets_accepted` says that every packet of the first passes the tests of
the second, whatever its data and of whatever length.
-/

namespace DiscoBsd.Slip

open DiscoBsd.Lib

/-! ## IP -/

/-- `ip_send`, for a packet whose header of 20 bytes is filled in except for the checksum. -/
def ipSend (p : List UInt8) : List UInt8 :=
  let p := (p.set 10 0).set 11 0
  put16 p 10 (fold (sum16 (p.take 20) 0))

/-- The tests of the header in `ip_input`: the length of the header and of the packet. -/
def ipHeader (p : List UInt8) : Option (Nat × Nat) :=
  if p.length < 20 ∨ byteAt p 0 / 16 ≠ 4 then none
  else
    let hlen := byteAt p 0 % 16 * 4
    let tlen := get16 p 2
    if hlen < 20 ∨ tlen < hlen ∨ tlen > p.length ∨ fold (sum16 (p.take hlen) 0) ≠ 0 then none
    else some (hlen, tlen)

/-- The protocols that are dealt with. -/
inductive Proto where
  | icmp
  | tcp
  deriving DecidableEq, Repr

/-- `ip_input`, up to the call it makes: a packet for us that is no fragment. -/
def ipInput (myaddr : List UInt8) (p : List UInt8) : Option (Proto × Nat × Nat) := do
  let (hlen, n) ← ipHeader p
  if (p.drop 16).take 4 ≠ myaddr then none
  else if get16 p 6 % 0x4000 ≠ 0 then none
  else if byteAt p 9 = 1 then some (.icmp, hlen, n)
  else if byteAt p 9 = 6 then some (.tcp, hlen, n)
  else none

/-! ## ICMP -/

/-- The tests of `icmp_input`. -/
def icmpSound (icmp : List UInt8) : Bool :=
  decide (8 ≤ icmp.length) && decide (fold (sum16 icmp 0) = 0)

/-- `data` replaces the bytes from `i` on. -/
def memcpy (p : List UInt8) (i : Nat) (data : List UInt8) : List UInt8 :=
  p.take i ++ data ++ p.drop (i + data.length)

/-- The header of an echo reply: no fragmentation flags, and the addresses swapped. -/
def echoHeader (p : List UInt8) (n : Nat) : List UInt8 :=
  let p := put16 (p.set 0 0x45) 2 n
  let p := ((p.set 6 0).set 7 0).set 8 64
  let tmp := (p.drop 12).take 4
  memcpy (memcpy p 12 ((p.drop 16).take 4)) 16 tmp

/-- `icmp_input`: an echo request is answered in its own buffer. -/
def icmpInput (p : List UInt8) (hlen n : Nat) : Option (List UInt8) :=
  let icmp := (p.take n).drop hlen
  if icmpSound icmp = false then none
  else if byteAt icmp 0 ≠ 8 then none
  else
    let icmp := ((icmp.set 0 0).set 2 0).set 3 0
    let icmp := put16 icmp 2 (fold (sum16 icmp 0))
    -- options of the request are dropped
    let p := if hlen ≠ 20 then p.take 20 ++ icmp else p.take hlen ++ icmp
    let n := if hlen ≠ 20 then 20 + icmp.length else n
    some (ipSend (echoHeader p n))

/-! ## TCP -/

/-- The tests of `tcp_input`: lengths and checksum. -/
def tcpSound (p : List UInt8) (hlen n : Nat) : Bool :=
  let th := (p.take n).drop hlen
  let tlen := n - hlen
  let s := sum16 ((p.drop 12).take 8) 0 + 6 + tlen
  let thlen := byteAt th 12 / 16 * 4
  decide (20 ≤ tlen) && decide (fold (sum16 th s) = 0) && decide (20 ≤ thlen) &&
    decide (thlen ≤ tlen)

/-- The bytes that `put16` puts. -/
def u16 (v : Nat) : List UInt8 := [UInt8.ofNat (v / 256), UInt8.ofNat v]

/-- The bytes that `put32` puts. -/
def u32 (v : BitVec 32) : List UInt8 := u16 (v.toNat / 65536) ++ u16 (v.toNat % 65536)

/-- What `send_seg` reads of its connection. -/
structure Ends where
  myaddr : List UInt8
  raddr : List UInt8
  lport : Nat
  rport : Nat
  my_len : myaddr.length = 4
  remote_len : raddr.length = 4

/-- The header and the data of a segment, before the checksum. A `SYN` carries our segment size. -/
def Ends.segment (tp : Ends) (seq rcvNxt : BitVec 32) (syn : Bool) (flags : UInt8) (window : Nat)
    (data : List UInt8) : List UInt8 :=
  u16 tp.lport ++ u16 tp.rport ++ u32 seq ++ u32 rcvNxt ++
    [UInt8.ofNat ((if syn then 24 else 20) / 4 * 16), flags] ++ u16 window ++ [0, 0] ++ [0, 0] ++
    (if syn then [2, 4] ++ u16 512 else []) ++ data

/-- The IP header of a packet of `n` bytes with a segment, before the checksum. -/
def Ends.header (tp : Ends) (id n : Nat) : List UInt8 :=
  [0x45, 0] ++ u16 n ++ u16 (id % 65536) ++ [0, 0, 64, 6, 0, 0] ++ tp.myaddr ++ tp.raddr

/-- `send_seg`, with `id` for the packet and `data` from the send buffer; `syn` is the `TH_SYN` of the
flags. -/
def sendSeg (tp : Ends) (id : Nat) (seq rcvNxt : BitVec 32) (syn : Bool) (flags : UInt8)
    (window : Nat) (data : List UInt8) : List UInt8 :=
  let thlen := if syn then 24 else 20
  let th := tp.segment seq rcvNxt syn flags window data
  let pkt := tp.header id (20 + thlen + data.length)
  let s := sum16 ((pkt.drop 12).take 8) 0
  let s := s + (6 + thlen + data.length)
  ipSend (pkt ++ put16 th 16 (fold (sum16 th s)))

/-! ## Bytes of a packet -/

variable {p : List UInt8} {i j v s : Nat}

theorem length_put16 (p : List UInt8) (i v : Nat) : (put16 p i v).length = p.length := by
  simp [put16]

theorem byteAt_set (a : UInt8) (hj : j ≠ i) : byteAt (p.set i a) j = byteAt p j := by
  unfold byteAt
  rw [List.getD_eq_getElem?_getD, List.getElem?_set_ne hj.symm, ← List.getD_eq_getElem?_getD]

theorem byteAt_set_self (a : UInt8) (hi : i < p.length) : byteAt (p.set i a) i = a.toNat := by
  unfold byteAt
  rw [List.getD_eq_getElem?_getD, List.getElem?_set_self hi]
  rfl

theorem byteAt_put16 (hj : j ≠ i) (hj' : j ≠ i + 1) : byteAt (put16 p i v) j = byteAt p j := by
  unfold put16
  rw [byteAt_set _ hj', byteAt_set _ hj]

theorem get16_put16 (hi : i + 2 ≤ p.length) (hv : v < 65536) : get16 (put16 p i v) i = v := by
  unfold get16 put16
  rw [byteAt_set _ (Nat.ne_of_lt (Nat.lt_succ_self i)), byteAt_set_self _ (by omega),
    byteAt_set_self _ (by rw [List.length_set]; omega)]
  simp only [UInt8.toNat_ofNat']
  omega

theorem take_put16 (n : Nat) : (put16 p i v).take n = put16 (p.take n) i v := by
  unfold put16
  rw [List.take_set, List.take_set]

theorem split_word (hi : i + 2 ≤ p.length) :
    ∃ a b, p = p.take i ++ a :: b :: p.drop (i + 2) ∧ get16 p i = a.toNat * 256 + b.toNat := by
  refine ⟨p[i], p[i + 1], ?_, ?_⟩
  · rw [← List.drop_eq_getElem_cons, ← List.drop_eq_getElem_cons, List.take_append_drop]
  · unfold get16 byteAt
    rw [List.getD_eq_getElem _ _ (by omega), List.getD_eq_getElem _ _ (by omega)]

theorem put16_eq (hi : i + 2 ≤ p.length) :
    put16 p i v = p.take i ++ UInt8.ofNat (v / 256) :: UInt8.ofNat v :: p.drop (i + 2) := by
  obtain ⟨a, b, hp, -⟩ := split_word hi
  have hlen : (p.take i).length = i := by rw [List.length_take]; omega
  unfold put16
  conv_lhs => rw [hp]
  rw [List.set_append_right _ _ (by omega), hlen, Nat.sub_self, List.set_cons_zero,
    List.set_append_right _ _ (by omega), hlen, Nat.add_sub_cancel_left, List.set_cons_succ,
    List.set_cons_zero]

/-- A word that was 0 is put in. -/
theorem sum_put16 (heven : i % 2 = 0) (hi : i + 2 ≤ p.length) (hzero : get16 p i = 0)
    (hv : v < 65536) : (words (put16 p i v)).sum = (words p).sum + v := by
  obtain ⟨a, b, hp, hword⟩ := split_word hi
  have hlen : (p.take i).length % 2 = 0 := by
    rw [List.length_take]
    omega
  rw [put16_eq hi]
  conv_rhs => rw [hp]
  rw [words_append hlen, words_append hlen]
  simp only [words, List.sum_append, List.sum_cons, UInt8.toNat_ofNat']
  omega

/-- The checksum in a word that was 0 makes the sum right. -/
theorem fold_put16 (heven : i % 2 = 0) (hi : i + 2 ≤ p.length) (hzero : get16 p i = 0)
    (hlen : p.length ≤ 65535) (hs : s < 2 ^ 30) :
    fold (sum16 (put16 p i (fold (sum16 p s))) s) = 0 := by
  have hsum := sum_words_le p
  have hfold : fold (sum16 p s) ≤ 65535 := Nat.sub_le _ _
  have hput := sum_put16 heven hi hzero (Nat.lt_succ_of_le hfold)
  rw [sum16_eq (by omega), hput, ← Nat.add_assoc]
  rw [sum16_eq (by omega)]
  exact fold_complement _

/-! ## IP -/

theorem length_ipSend (p : List UInt8) : (ipSend p).length = p.length := by
  unfold ipSend
  rw [length_put16, List.length_set, List.length_set]

theorem byteAt_ipSend (hj : j ≠ 10) (hj' : j ≠ 11) : byteAt (ipSend p) j = byteAt p j := by
  unfold ipSend
  rw [byteAt_put16 hj hj', byteAt_set _ hj', byteAt_set _ hj]

theorem drop_ipSend (n : Nat) (hn : 12 ≤ n) : (ipSend p).drop n = p.drop n := by
  unfold ipSend put16
  rw [List.drop_set_of_lt (by omega), List.drop_set_of_lt (by omega), List.drop_set_of_lt (by omega),
    List.drop_set_of_lt (by omega)]

/-- What `ip_send` emits has a header that `ip_input` accepts. -/
theorem ipHeader_ipSend (hlen : 20 ≤ p.length) (hver : byteAt p 0 = 0x45)
    (htotal : get16 p 2 = p.length) : ipHeader (ipSend p) = some (20, p.length) := by
  have hfold : fold (sum16 ((ipSend p).take 20) 0) = 0 := by
    unfold ipSend
    dsimp only
    rw [take_put16]
    have hlen20 : (((p.set 10 0).set 11 0).take 20).length = 20 := by
      rw [List.length_take, List.length_set, List.length_set]
      omega
    refine fold_put16 (by decide) (by rw [hlen20]; decide) ?_ (by rw [hlen20]; decide) (by decide)
    rw [List.take_set, List.take_set]
    unfold get16
    rw [byteAt_set _ (by decide), byteAt_set_self _ (by simp; omega),
      byteAt_set_self _ (by simp; omega)]
    rfl
  have hbyte : byteAt (ipSend p) 0 = 0x45 := by
    rw [byteAt_ipSend (by decide) (by decide), hver]
  have hn : get16 (ipSend p) 2 = p.length := by
    unfold get16 at htotal ⊢
    rw [byteAt_ipSend (by decide) (by decide), byteAt_ipSend (by decide) (by decide), htotal]
  unfold ipHeader
  rw [length_ipSend, hbyte, hn]
  rw [if_neg (by omega)]
  dsimp only
  rw [hfold, if_neg (by omega)]

/-! ## TCP -/

section Segment

variable (tp : Ends) (id : Nat) (seq rcvNxt : BitVec 32) (syn : Bool) (flags : UInt8)
  (window n : Nat) (data : List UInt8)

theorem length_header : (tp.header id n).length = 20 := by
  simp [Ends.header, u16, tp.my_len, tp.remote_len]

theorem length_segment : (tp.segment seq rcvNxt syn flags window data).length =
    (if syn then 24 else 20) + data.length := by
  cases syn <;> simp [Ends.segment, u16, u32] <;> omega

theorem header_fields (hn : n < 65536) (q : List UInt8) :
    byteAt (tp.header id n ++ q) 0 = 0x45 ∧ get16 (tp.header id n ++ q) 2 = n ∧
      get16 (tp.header id n ++ q) 6 = 0 ∧ byteAt (tp.header id n ++ q) 9 = 6 := by
  simp only [get16, byteAt, Ends.header, u16, List.cons_append, List.nil_append,
    List.getD_cons_succ, List.getD_cons_zero, UInt8.toNat_ofNat']
  refine ⟨by decide, ?_, by decide, by decide⟩
  omega

theorem header_addresses (q : List UInt8) :
    ((tp.header id n ++ q).drop 16).take 4 = tp.raddr ∧
      ((tp.header id n ++ q).drop 12).take 8 = tp.myaddr ++ tp.raddr := by
  obtain ⟨a, b, c, d, hmy⟩ := List.length_eq_four.mp tp.my_len
  obtain ⟨e, f, g, h, hremote⟩ := List.length_eq_four.mp tp.remote_len
  simp [Ends.header, u16, hmy, hremote]

theorem segment_fields :
    get16 (tp.segment seq rcvNxt syn flags window data) 16 = 0 ∧
      byteAt (tp.segment seq rcvNxt syn flags window data) 12 / 16 * 4 =
        if syn then 24 else 20 := by
  simp only [get16, byteAt, Ends.segment, u16, u32, List.cons_append, List.nil_append,
    List.getD_cons_succ, List.getD_cons_zero]
  cases syn <;> decide

end Segment

/-- Every segment that `send_seg` emits is accepted at the other end. -/
theorem sendSeg_accepted (tp : Ends) (id : Nat) (seq rcvNxt : BitVec 32) (syn : Bool)
    (flags : UInt8) (window : Nat) (data : List UInt8)
    (hlen : 20 + (if syn then 24 else 20) + data.length ≤ MTU) :
    let p := sendSeg tp id seq rcvNxt syn flags window data
    ipInput tp.raddr p = some (.tcp, 20, p.length) ∧ tcpSound p 20 p.length = true := by
  have hmtu : MTU = 1500 := rfl
  have hseg := length_segment tp seq rcvNxt syn flags window data
  obtain ⟨hzero, hoff⟩ := segment_fields tp seq rcvNxt syn flags window data
  have hsend : sendSeg tp id seq rcvNxt syn flags window data =
      ipSend (tp.header id (20 + (if syn then 24 else 20) + data.length) ++
        put16 (tp.segment seq rcvNxt syn flags window data) 16
          (fold (sum16 (tp.segment seq rcvNxt syn flags window data)
            (sum16 (tp.myaddr ++ tp.raddr) 0 +
              (6 + (if syn then 24 else 20) + data.length))))) := by
    have hpseudo := (header_addresses tp id (20 + (if syn then 24 else 20) + data.length) []).2
    rw [List.append_nil] at hpseudo
    rw [← hpseudo]
    rfl
  rw [hsend]
  have hthlen : (if syn then 24 else 20) ≤ 24 := by cases syn <;> decide
  have hthlen' : 20 ≤ (if syn then 24 else 20) := by cases syn <;> decide
  generalize (if syn then 24 else 20) = thlen at *
  generalize tp.segment seq rcvNxt syn flags window data = th at *
  generalize hs : sum16 (tp.myaddr ++ tp.raddr) 0 + (6 + thlen + data.length) = s
  have hbound : s < 2 ^ 30 := by
    have hsum := sum_words_le (tp.myaddr ++ tp.raddr)
    rw [List.length_append, tp.my_len, tp.remote_len] at hsum
    rw [← hs, sum16_eq (by omega)]
    omega
  generalize hq : put16 th 16 (fold (sum16 th s)) = q
  have hqlen : q.length = thlen + data.length := by
    rw [← hq, length_put16, hseg]
  have hpkt : (tp.header id (20 + thlen + data.length) ++ q).length = 20 + thlen + data.length := by
    rw [List.length_append, length_header, hqlen]
    omega
  obtain ⟨hver, htotal, hfrag, hproto⟩ :=
    header_fields tp id (20 + thlen + data.length) (by omega) q
  obtain ⟨hdst, hpseudo⟩ := header_addresses tp id (20 + thlen + data.length) q
  have hdrop : (tp.header id (20 + thlen + data.length) ++ q).drop 20 = q :=
    List.drop_left' (length_header tp id _)
  generalize tp.header id (20 + thlen + data.length) ++ q = pkt at *
  have hipsend := ipHeader_ipSend (by omega) hver (htotal.trans hpkt.symm)
  constructor
  · unfold ipInput
    rw [hipsend]
    have hfrag' : get16 (ipSend pkt) 6 = 0 := by
      unfold get16 at hfrag ⊢
      rw [byteAt_ipSend (by decide) (by decide), byteAt_ipSend (by decide) (by decide), hfrag]
    simp only [Option.bind_eq_bind, Option.bind_some]
    rw [drop_ipSend 16 (by decide), hdst, hfrag', byteAt_ipSend (by decide) (by decide), hproto,
      length_ipSend]
    simp
  · unfold tcpSound
    rw [List.take_length, drop_ipSend 20 (by decide), drop_ipSend 12 (by decide), hdrop, hpseudo,
      length_ipSend, hpkt]
    have htlen : 20 + thlen + data.length - 20 = thlen + data.length := by omega
    have hs' : sum16 (tp.myaddr ++ tp.raddr) 0 + 6 + (20 + thlen + data.length - 20) = s := by
      rw [← hs]
      omega
    have hfold : fold (sum16 q s) = 0 := by
      rw [← hq]
      exact fold_put16 (by decide) (by omega) hzero (by omega) hbound
    have hoff' : byteAt q 12 / 16 * 4 = thlen := by
      rw [← hq, byteAt_put16 (by decide) (by decide), hoff]
    dsimp only
    rw [hs', hfold, hoff', htlen]
    simp only [Bool.and_eq_true, decide_eq_true_eq, and_true]
    omega

/-! ## ICMP -/

theorem length_memcpy {data : List UInt8} (hi : i + data.length ≤ p.length) :
    (memcpy p i data).length = p.length := by
  unfold memcpy
  simp only [List.length_append, List.length_take, List.length_drop]
  omega

theorem byteAt_memcpy {data : List UInt8} (hi : i ≤ p.length) (hj : j < i) :
    byteAt (memcpy p i data) j = byteAt p j := by
  unfold memcpy byteAt
  rw [List.append_assoc, List.getD_append _ _ _ _ (by rw [List.length_take]; omega),
    List.getD_eq_getElem?_getD, List.getElem?_take_of_lt hj, ← List.getD_eq_getElem?_getD]

/-- So is what lies behind it. -/
theorem drop_memcpy {data : List UInt8} {n : Nat} (hi : i + data.length ≤ n)
    (hle : i + data.length ≤ p.length) : (memcpy p i data).drop n = p.drop n := by
  unfold memcpy
  have hlen : (p.take i ++ data).length = i + data.length := by
    rw [List.length_append, List.length_take]
    omega
  rw [List.drop_append, List.drop_eq_nil_of_le (by omega), List.nil_append, hlen, List.drop_drop]
  congr 1
  omega

/-- What the header of an echo reply says. -/
theorem echoHeader_spec {n : Nat} (hlen : 20 ≤ p.length) (hn : n < 65536) :
    (echoHeader p n).length = p.length ∧ byteAt (echoHeader p n) 0 = 0x45 ∧
      get16 (echoHeader p n) 2 = n ∧ get16 (echoHeader p n) 6 = 0 ∧
      byteAt (echoHeader p n) 9 = byteAt p 9 ∧
      ((echoHeader p n).drop 16).take 4 = (p.drop 12).take 4 ∧
      (echoHeader p n).drop 20 = p.drop 20 := by
  unfold echoHeader
  dsimp only
  generalize hq : (((put16 (p.set 0 0x45) 2 n).set 6 0).set 7 0).set 8 64 = q
  have hqlen : q.length = p.length := by
    rw [← hq]
    simp [length_put16]
  have hver : byteAt q 0 = 0x45 := by
    rw [← hq, byteAt_set _ (by decide), byteAt_set _ (by decide), byteAt_set _ (by decide),
      byteAt_put16 (by decide) (by decide), byteAt_set_self _ (by omega)]
    rfl
  have htotal : get16 q 2 = n := by
    have hput := get16_put16 (p := p.set 0 0x45) (i := 2) (v := n)
      (by rw [List.length_set]; omega) hn
    unfold get16 at hput ⊢
    rw [← hq, byteAt_set _ (by decide), byteAt_set _ (by decide), byteAt_set _ (by decide),
      byteAt_set _ (by decide), byteAt_set _ (by decide), byteAt_set _ (by decide), hput]
  have hfrag : get16 q 6 = 0 := by
    unfold get16
    rw [← hq, byteAt_set _ (by decide), byteAt_set _ (by decide),
      byteAt_set_self _ (by rw [length_put16, List.length_set]; omega), byteAt_set _ (by decide),
      byteAt_set_self _ (by rw [List.length_set, length_put16, List.length_set]; omega)]
    rfl
  have hproto : byteAt q 9 = byteAt p 9 := by
    rw [← hq, byteAt_set _ (by decide), byteAt_set _ (by decide), byteAt_set _ (by decide),
      byteAt_put16 (by decide) (by decide), byteAt_set _ (by decide)]
  have hdrop : ∀ k, 9 ≤ k → q.drop k = p.drop k := by
    intro k hk
    rw [← hq]
    unfold put16
    rw [List.drop_set_of_lt (by omega), List.drop_set_of_lt (by omega),
      List.drop_set_of_lt (by omega), List.drop_set_of_lt (by omega),
      List.drop_set_of_lt (by omega), List.drop_set_of_lt (by omega)]
  -- the two copies
  have hfour : ∀ k, k + 4 ≤ 20 → ((q.drop k).take 4).length = 4 := by
    intro k hk
    rw [List.length_take, List.length_drop]
    omega
  have hfirst : (memcpy q 12 ((q.drop 16).take 4)).length = p.length := by
    rw [length_memcpy (by rw [hfour 16 (by decide)]; omega), hqlen]
  have hbyte : ∀ j, j < 12 → byteAt (memcpy (memcpy q 12 ((q.drop 16).take 4)) 16
      ((q.drop 12).take 4)) j = byteAt q j := by
    intro j hj
    rw [byteAt_memcpy (by omega) (by omega), byteAt_memcpy (by omega) hj]
  refine ⟨?_, ?_, ?_, ?_, ?_, ?_, ?_⟩
  · rw [length_memcpy (by rw [hfour 12 (by decide)]; omega), hfirst]
  · rw [hbyte 0 (by decide), hver]
  · unfold get16 at htotal ⊢
    rw [hbyte 2 (by decide), hbyte 3 (by decide), htotal]
  · unfold get16 at hfrag ⊢
    rw [hbyte 6 (by decide), hbyte 7 (by decide), hfrag]
  · rw [hbyte 9 (by decide), hproto]
  · rw [← hdrop 12 (by decide)]
    generalize memcpy q 12 ((q.drop 16).take 4) = q' at *
    unfold memcpy
    rw [List.append_assoc, List.drop_left' (by rw [List.length_take]; omega),
      List.take_left' (hfour 12 (by decide))]
  · rw [drop_memcpy (by rw [hfour 12 (by decide)]) (by rw [hfour 12 (by decide)]; omega),
      drop_memcpy (by rw [hfour 16 (by decide)]; decide) (by rw [hfour 16 (by decide)]; omega),
      hdrop 20 (by decide)]

/-- What `ip_input` has made sure of. -/
theorem ipInput_bounds {myaddr : List UInt8} {proto : Proto} {hlen n : Nat}
    (h : ipInput myaddr p = some (proto, hlen, n)) :
    20 ≤ hlen ∧ hlen ≤ n ∧ n ≤ p.length ∧ (proto = .icmp → byteAt p 9 = 1) := by
  unfold ipInput at h
  simp only [Option.bind_eq_bind, Option.bind_eq_some_iff] at h
  obtain ⟨⟨hlen', n'⟩, hheader, h⟩ := h
  dsimp only at h
  have hbounds : 20 ≤ hlen' ∧ hlen' ≤ n' ∧ n' ≤ p.length := by
    unfold ipHeader at hheader
    split at hheader
    · cases hheader
    · dsimp only at hheader
      split at hheader
      · cases hheader
      next hgood =>
        cases hheader
        omega
  split at h
  · cases h
  split at h
  · cases h
  split at h
  next hproto =>
    cases h
    exact ⟨hbounds.1, hbounds.2.1, hbounds.2.2, fun _ => hproto⟩
  split at h
  · cases h
    exact ⟨hbounds.1, hbounds.2.1, hbounds.2.2, nofun⟩
  · cases h

/-- The data of an echo reply, with their checksum. -/
theorem icmpSound_reply {icmp : List UInt8} (hlen : 8 ≤ icmp.length)
    (hmax : icmp.length ≤ 65535) :
    icmpSound (put16 (((icmp.set 0 0).set 2 0).set 3 0) 2
      (fold (sum16 (((icmp.set 0 0).set 2 0).set 3 0) 0))) = true := by
  have hsame : (((icmp.set 0 0).set 2 0).set 3 0).length = icmp.length := by simp
  have hzero : get16 (((icmp.set 0 0).set 2 0).set 3 0) 2 = 0 := by
    unfold get16
    rw [byteAt_set _ (by decide), byteAt_set_self _ (by rw [List.length_set]; omega),
      byteAt_set_self _ (by rw [List.length_set, List.length_set]; omega)]
    rfl
  generalize ((icmp.set 0 0).set 2 0).set 3 0 = q at *
  unfold icmpSound
  rw [length_put16, fold_put16 (by decide) (by omega) hzero (by omega) (by decide)]
  simp only [Bool.and_eq_true, decide_eq_true_eq, and_true]
  omega

/-- The answer to an echo request: a header that `ip_input` accepts, for the sender, and data that
`icmp_input` accepts. -/
theorem icmpInput_accepted {myaddr reply : List UInt8} {hlen n : Nat} (hmtu : p.length ≤ MTU)
    (hinput : ipInput myaddr p = some (.icmp, hlen, n))
    (hreply : icmpInput p hlen n = some reply) :
    ipInput ((p.drop 12).take 4) reply = some (.icmp, 20, reply.length) ∧
      icmpSound (reply.drop 20) = true := by
  obtain ⟨h20, hle, hn, hproto⟩ := ipInput_bounds hinput
  have hmax : MTU = 1500 := rfl
  have hicmp : ((p.take n).drop hlen).length = n - hlen := by
    rw [List.length_drop, List.length_take]
    omega
  unfold icmpInput at hreply
  dsimp only at hreply
  split at hreply
  · cases hreply
  next hsound =>
    split at hreply
    · cases hreply
    · rw [Bool.not_eq_false] at hsound
      have h8 : 8 ≤ ((p.take n).drop hlen).length := by
        unfold icmpSound at hsound
        simp only [Bool.and_eq_true, decide_eq_true_eq] at hsound
        exact hsound.1
      have hsound' := icmpSound_reply h8 (by omega)
      have hlen' : (put16 ((((p.take n).drop hlen).set 0 0).set 2 0 |>.set 3 0) 2
          (fold (sum16 ((((p.take n).drop hlen).set 0 0).set 2 0 |>.set 3 0) 0))).length =
          n - hlen := by
        rw [length_put16, List.length_set, List.length_set, List.length_set, hicmp]
      generalize put16 ((((p.take n).drop hlen).set 0 0).set 2 0 |>.set 3 0) 2
        (fold (sum16 ((((p.take n).drop hlen).set 0 0).set 2 0 |>.set 3 0) 0)) = icmp at *
      -- with options or without, the reply is the same
      have hpkt : (if hlen ≠ 20 then p.take 20 ++ icmp else p.take hlen ++ icmp) =
          p.take 20 ++ icmp := by
        split
        · rfl
        next heq => rw [not_not.mp heq]
      have htotal : (if hlen ≠ 20 then 20 + icmp.length else n) = 20 + icmp.length := by
        split
        · rfl
        · omega
      rw [hpkt, htotal, Option.some.injEq] at hreply
      have htake : (p.take 20).length = 20 := by
        rw [List.length_take]
        omega
      have hsize : (p.take 20 ++ icmp).length = 20 + icmp.length := by
        rw [List.length_append, htake]
      obtain ⟨hsame, hver, hword, hfrag, hproto', hdst, hdata⟩ :=
        echoHeader_spec (p := p.take 20 ++ icmp) (n := 20 + icmp.length) (by omega) (by omega)
      have hp9 : byteAt (p.take 20 ++ icmp) 9 = 1 := by
        rw [← hproto rfl]
        unfold byteAt
        rw [List.getD_append _ _ _ _ (by rw [htake]; decide), List.getD_eq_getElem?_getD,
          List.getElem?_take_of_lt (by decide), ← List.getD_eq_getElem?_getD]
      have hsrc : ((p.take 20 ++ icmp).drop 12).take 4 = (p.drop 12).take 4 := by
        rw [List.drop_append_of_le_length (by omega), List.take_append_of_le_length
          (by rw [List.length_drop]; omega), List.drop_take, List.take_take]
        rfl
      have hdrop : (p.take 20 ++ icmp).drop 20 = icmp := List.drop_left' htake
      rw [hp9] at hproto'
      rw [hsrc] at hdst
      rw [hdrop] at hdata
      generalize echoHeader (p.take 20 ++ icmp) (20 + icmp.length) = q at *
      have hheader := ipHeader_ipSend (by omega) hver (hword.trans (hsame.trans hsize).symm)
      subst hreply
      constructor
      · have hfrag' : get16 (ipSend q) 6 = 0 := by
          unfold get16 at hfrag ⊢
          rw [byteAt_ipSend (by decide) (by decide), byteAt_ipSend (by decide) (by decide), hfrag]
        unfold ipInput
        rw [hheader]
        simp only [Option.bind_eq_bind, Option.bind_some]
        rw [drop_ipSend 16 (by decide), hdst, hfrag', byteAt_ipSend (by decide) (by decide),
          hproto', length_ipSend]
        simp
      · rw [drop_ipSend 20 (by decide), hdata]
        exact hsound'

/-- Whatever `ip_send`, `send_seg` and `icmp_input` emit passes the tests of `ip_input` and of
`tcp_input` or `icmp_input`; and up to 65535 bytes `sum16` does not overflow, `fold` makes of it the checksum
of RFC 1071, and the data may be summed in pieces of even length. -/
theorem packets_accepted :
    (∀ p : List UInt8, 20 ≤ p.length → byteAt p 0 = 0x45 → get16 p 2 = p.length →
      ipHeader (ipSend p) = some (20, p.length)) ∧
    (∀ (tp : Ends) (id : Nat) (seq rcvNxt : BitVec 32) (syn : Bool) (flags : UInt8)
      (window : Nat) (data : List UInt8), 20 + (if syn then 24 else 20) + data.length ≤ MTU →
      let p := sendSeg tp id seq rcvNxt syn flags window data
      ipInput tp.raddr p = some (.tcp, 20, p.length) ∧ tcpSound p 20 p.length = true) ∧
    (∀ (myaddr p reply : List UInt8) (hlen n : Nat), p.length ≤ MTU →
      ipInput myaddr p = some (.icmp, hlen, n) → icmpInput p hlen n = some reply →
      ipInput ((p.drop 12).take 4) reply = some (.icmp, 20, reply.length) ∧
        icmpSound (reply.drop 20) = true) ∧
    (∀ data : List UInt8, data.length ≤ 65535 →
      sum16 data 0 = (words data).sum ∧ (words data).sum < 2 ^ 32 ∧
        fold (sum16 data 0) = rfc1071 data) ∧
    ∀ (p q : List UInt8) (s : Nat), p.length % 2 = 0 → sum16 (p ++ q) s = sum16 q (sum16 p s) := by
  refine ⟨fun p => ipHeader_ipSend, sendSeg_accepted, ?_, ?_, ?_⟩
  · exact fun myaddr p reply hlen n => icmpInput_accepted
  · intro data hdata
    have hle := sum_words_le data
    obtain ⟨hsum, hfold⟩ := fold_sum16 hdata
    exact ⟨hsum, by omega, hfold⟩
  · exact fun p q s hp => sum16_append hp q s

/-- A segment with one byte of data, from 10.0.0.1 to 10.0.0.2. -/
theorem packets_accepted_byte :
    let tp : Ends := ⟨[10, 0, 0, 1], [10, 0, 0, 2], 7, 1024, rfl, rfl⟩
    ipInput tp.raddr (sendSeg tp 0 1 2 false 0x18 512 [65]) =
      some (.tcp, 20, (sendSeg tp 0 1 2 false 0x18 512 [65]).length) :=
  (packets_accepted.2.1 _ 0 1 2 false 0x18 512 [65] (by decide)).1

end DiscoBsd.Slip
