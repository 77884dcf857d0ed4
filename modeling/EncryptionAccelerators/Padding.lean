import EncryptionAccelerators.UdpDepacketizer

/-! `udp_depacketizer` on short datagrams: the frame goes on behind the payload. -/
namespace EncryptionAccelerators.Net
open Dataflow

/-- A datagram for the cipher path with `n` payload bytes, padded to 60 words. -/
structure PaddedFrame (f : List NetWord) (n : ℕ) : Prop where
  strm : classify f = .UDP_STRM
  ihl : (ipv4Of (f.drop 14)).IHL = 5
  len : (udpOf (f.drop 34)).len.toNat = 8 + n
  one_le : 1 ≤ n
  words : f.length = max 60 (42 + n)

/-- Between `s` and `t` the payload of the frame is put out, `last` on its final word only, and
its sender is published. -/
structure Delivers (f : Frame) (s t : Io InputStrm OutputStrm NetWord ((c : Cell) → c.Val)) :
    Prop where
  payload : ∃ p : Frame, p.words.map NetWord.data = udpPayload f.words ∧
    t.out .outputStrm = s.out .outputStrm ++ p.words
  dstIpAddr : t.mem .dstIpAddr = (ipv4Of (f.words.drop 14)).srcIp
  dstMacAddr : t.mem .dstMacAddr = (ethernetOf f.words).srcMacAddr

/-- Invocation by invocation the payloads of the frames are delivered. -/
def PayloadsDelivered (fs : List Frame) (m : (c : Cell) → c.Val) : Prop :=
  ∀ k (hk : k < fs.length), ∃ s t,
    InvokesN (Memory.shared Unit Cell.Val) () udpDepacketizer .start k
      ⟨fun _ => fs.flatMap Frame.words,fun _ => [],m⟩ s ∧
    Invokes (Memory.shared Unit Cell.Val) () udpDepacketizer .start s t ∧ Delivers fs[k] s t

/-- The memory after the sender of the frame `f` is published. -/
def senderStored (m : (c : Cell) → c.Val) (f : Frame) : (c : Cell) → c.Val :=
  Function.update (Function.update m .dstIpAddr (ipv4Of (f.words.drop 14)).srcIp) .dstMacAddr
    (ethernetOf f.words).srcMacAddr

lemma senderStored_dstIpAddr (m : (c : Cell) → c.Val) (f : Frame) :
    senderStored m f .dstIpAddr = (ipv4Of (f.words.drop 14)).srcIp := rfl

lemma senderStored_dstMacAddr (m : (c : Cell) → c.Val) (f : Frame) :
    senderStored m f .dstMacAddr = (ethernetOf f.words).srcMacAddr := rfl

/-- The core after `k` of the frames. -/
def forwardedAfter (fs : List Frame) (m : (c : Cell) → c.Val) (k : ℕ) :
    Io InputStrm OutputStrm NetWord ((c : Cell) → c.Val) where
  inp _ := (fs.drop k).flatMap Frame.words
  out _ := (fs.take k).flatMap fun f => f.words.drop 42
  mem := (fs.take k).foldl senderStored m

lemma forwardedAfter_succ (fs : List Frame) (m : (c : Cell) → c.Val) {k : ℕ} (hk : k < fs.length) :
    forwardedAfter fs m (k+1) = ⟨fun _ => (fs.drop (k+1)).flatMap Frame.words,
      fun _ => (forwardedAfter fs m k).out .outputStrm ++ fs[k].words.drop 42,
      senderStored (forwardedAfter fs m k).mem fs[k]⟩ := by
  have htake : fs.take (k+1) = fs.take k ++ [fs[k]] := List.take_succ_eq_append_getElem hk
  simp only [forwardedAfter, htake, List.flatMap_append, List.flatMap_singleton,
    List.foldl_append, List.foldl_cons, List.foldl_nil]

lemma forwardedAfter_invokes (fs : List Frame) (hf : ∀ f ∈ fs, 43 ≤ f.words.length)
    (m : (c : Cell) → c.Val) {k : ℕ} (hk : k < fs.length) :
    Invokes (Memory.shared Unit Cell.Val) () udpDepacketizer .start (forwardedAfter fs m k)
      (forwardedAfter fs m (k+1)) := by
  have hdrop : fs.drop k = fs[k]::fs.drop (k+1) := List.drop_eq_getElem_cons hk
  rw [forwardedAfter_succ fs m hk]
  exact udpDepacketizer_invokes (Memory.shared Unit Cell.Val) () fs[k]
    (hf _ (List.getElem_mem hk)) ((fs.drop (k+1)).flatMap Frame.words) (forwardedAfter fs m k)
    (by rw [forwardedAfter, hdrop, List.flatMap_cons])

/-- What the `k`-th invocation delivers is what it forwards. -/
lemma payloadsDelivered_iff (fs : List Frame) (hf : ∀ f ∈ fs, 43 ≤ f.words.length)
    (m : (c : Cell) → c.Val) : PayloadsDelivered fs m ↔
      ∀ k (hk : k < fs.length), Delivers fs[k] (forwardedAfter fs m k) (forwardedAfter fs m (k+1)) := by
  have hrun : ∀ k ≤ fs.length, ∀ s, InvokesN (Memory.shared Unit Cell.Val) () udpDepacketizer .start k
      ⟨fun _ => fs.flatMap Frame.words,fun _ => [],m⟩ s ↔ s = forwardedAfter fs m k := by
    intro k hk s
    refine invokesN_iff_of_le (s := forwardedAfter fs m) rfl (fun n hn => ?_) hk s
    exact forwardedAfter_invokes fs hf m hn
  constructor
  · intro h k hk
    obtain ⟨s, t, hs, ht, hd⟩ := h k hk
    obtain rfl := (hrun k hk.le s).mp hs
    obtain rfl := ht.deterministic (forwardedAfter_invokes fs hf m hk)
    exact hd
  · intro h k hk
    exact ⟨_, _, (hrun k hk.le _).mpr rfl, forwardedAfter_invokes fs hf m hk, h k hk⟩

lemma PaddedFrame.length_udpPayload {f : List NetWord} {n : ℕ} (h : PaddedFrame f n) :
    udpPayload f = ((f.drop 42).take n).map NetWord.data ∧ n ≤ (f.drop 42).length := by
  have h5 : (5 : BitVec 4).toNat = 5 := rfl
  have hw := h.words
  refine ⟨?_, ?_⟩
  · simp only [udpPayload, h.ihl, h5, h.len]
    rw [Nat.add_sub_cancel_left]
  · rw [List.length_drop]
    omega

/-- The core tells a payload from its padding by nothing. -/
lemma PaddedFrame.delivers_iff {f : Frame} {n : ℕ} (h : PaddedFrame f.words n) (fs : List Frame)
    (m : (c : Cell) → c.Val) {k : ℕ} (hk : k < fs.length) (he : fs[k] = f) :
    Delivers f (forwardedAfter fs m k) (forwardedAfter fs m (k+1)) ↔ 18 ≤ n := by
  obtain ⟨hpay, hle⟩ := h.length_udpPayload
  have hw := h.words
  rw [forwardedAfter_succ fs m hk, he]
  have hdrop : f.words.drop 42 = f.init.drop 42 ++ [f.final] := f.drop_words (by omega)
  constructor
  · rintro ⟨⟨p, hp, hpout⟩, -, -⟩
    have hwords : p.words = f.words.drop 42 := List.append_cancel_left hpout.symm
    have hlen := congrArg List.length hp
    rw [hpay, hwords, List.length_map, List.length_map, List.length_take_of_le hle,
      List.length_drop] at hlen
    omega
  · intro hn
    have hall : (f.words.drop 42).length = n := by
      rw [List.length_drop]
      omega
    constructor
    · refine ⟨⟨f.init.drop 42,f.final,fun w hw => f.init_last w (List.mem_of_mem_drop hw),
        f.final_last⟩, ?_, ?_⟩
      · rw [hpay, List.take_of_length_le hall.le, hdrop]
        rfl
      · rw [hdrop]
        rfl
    · exact senderStored_dstIpAddr (forwardedAfter fs m k).mem f
    · exact senderStored_dstMacAddr (forwardedAfter fs m k).mem f

/-- Exactly the payloads of a sequence of frames are delivered just when none is padded. -/
theorem payloads_delivered (fs : List Frame) (h : ∀ f ∈ fs, ∃ n, PaddedFrame f.words n)
    (m : (c : Cell) → c.Val) :
    PayloadsDelivered fs m ↔ ∀ f ∈ fs, ∀ n, PaddedFrame f.words n → 18 ≤ n := by
  have hf : ∀ f ∈ fs, 43 ≤ f.words.length := by
    intro f hm
    obtain ⟨n, hn⟩ := h f hm
    have hw := hn.words
    omega
  rw [payloadsDelivered_iff fs hf m]
  constructor
  · intro hd f hm n hn
    obtain ⟨k, hk, rfl⟩ := List.getElem_of_mem hm
    exact (hn.delivers_iff fs m hk rfl).mp (hd k hk)
  · intro hn k hk
    obtain ⟨n, hp⟩ := h fs[k] (List.getElem_mem hk)
    exact (hp.delivers_iff fs m hk rfl).mpr (hn _ (List.getElem_mem hk) n hp)

/-- A datagram for port 60000 with the given payload, padded. -/
def paddedFrame (payload : List Byte) : Frame where
  init := (List.replicate 12 0xff ++ [0x08,0x00,0x45] ++ List.replicate 8 0 ++ [0x11] ++
    List.replicate 12 0 ++ [0xea,0x60,0,BitVec.ofNat 8 (8 + payload.length),0,0] ++ payload ++
    List.replicate (17 - payload.length) 0).map byteWord
  final := ⟨0,true,false⟩
  init_last := fun _ => byteWord_last
  final_last := Eq.refl true

/-- A datagram of one byte comes out as 18. -/
theorem payloads_delivered_fails : ¬ ∀ fs : List Frame,
    (∀ f ∈ fs, ∃ n, PaddedFrame f.words n) → ∀ m, PayloadsDelivered fs m := by
  intro h
  have hp : PaddedFrame (paddedFrame [7]).words 1 :=
    ⟨by decide, by decide, by decide, by decide, by decide⟩
  have hd := h [paddedFrame [7]] (by simpa using ⟨1, hp⟩) Cell.zero
  rw [payloadsDelivered_iff _ (by decide)] at hd
  have h18 := (hp.delivers_iff [paddedFrame [7]] Cell.zero (k := 0) (by decide) rfl).mp
    (hd 0 (by decide))
  omega

/-- A datagram for port 60000 with 18 bytes, which fill the frame. -/
def fullFrame (byte : Byte) : Frame where
  init := (List.replicate 12 0xff ++ [0x08,0x00,0x45] ++ List.replicate 8 0 ++ [0x11] ++
    List.replicate 12 0 ++ [0xea,0x60,0,26,0,0] ++ List.replicate 17 byte).map byteWord
  final := ⟨byte,true,false⟩
  init_last := fun _ => byteWord_last
  final_last := Eq.refl true

lemma fullFrame_padded {byte : Byte} (h : byte = 5 ∨ byte = 9) :
    PaddedFrame (fullFrame byte).words 18 := by
  rcases h with rfl | rfl <;> exact ⟨by decide, by decide, by decide, by decide, by decide⟩

/-- `payloads_delivered` on two datagrams of 18 bytes, and with one byte in the second. -/
theorem payloads_delivered_full : PayloadsDelivered [fullFrame 5,fullFrame 9] Cell.zero ∧
    ¬ PayloadsDelivered [fullFrame 5,paddedFrame [7]] Cell.zero := by
  have h5 := fullFrame_padded (.inl rfl : (5 : Byte) = 5 ∨ (5 : Byte) = 9)
  have h9 := fullFrame_padded (.inr rfl : (9 : Byte) = 5 ∨ (9 : Byte) = 9)
  have h1 : PaddedFrame (paddedFrame [7]).words 1 :=
    ⟨by decide, by decide, by decide, by decide, by decide⟩
  constructor
  · have hall : ∀ f ∈ [fullFrame 5,fullFrame 9], ∃ n, PaddedFrame f.words n :=
      List.forall_mem_cons.mpr ⟨⟨18, h5⟩, List.forall_mem_singleton.mpr ⟨18, h9⟩⟩
    rw [payloads_delivered _ hall]
    intro f hf n hn
    have hlen := hn.len
    obtain rfl | rfl : f = fullFrame 5 ∨ f = fullFrame 9 := by simpa using hf
    · have h26 : (udpOf ((fullFrame 5).words.drop 34)).len.toNat = 26 := by decide
      omega
    · have h26 : (udpOf ((fullFrame 9).words.drop 34)).len.toNat = 26 := by decide
      omega
  · have hall : ∀ f ∈ [fullFrame 5,paddedFrame [7]], ∃ n, PaddedFrame f.words n :=
      List.forall_mem_cons.mpr ⟨⟨18, h5⟩, List.forall_mem_singleton.mpr ⟨1, h1⟩⟩
    rw [payloads_delivered _ hall]
    intro h
    have h18 := h _ (by simp) 1 h1
    omega

end EncryptionAccelerators.Net
