import EncryptionAccelerators.NetHeaders

/-! The ARP packet codec of `network.cpp`. -/
namespace EncryptionAccelerators.Net
open Dataflow

/-- `arp_packet_t`. -/
structure ArpPacket where
  htype : BitVec 16
  ptype : BitVec 16
  hlen : BitVec 8
  plen : BitVec 8
  oper : BitVec 16
  sha : BitVec 48
  spa : BitVec 32
  tha : BitVec 48
  tpa : BitVec 32
  deriving DecidableEq, Repr

def ARP_OPER_REQUEST : BitVec 16 := 0x0001
def ARP_OPER_REPLY : BitVec 16 := 0x0002

section ArpCodec
variable {In Out A L : Type} {V : A → Type}

/-- The 28 fields and the test of the loop behind them. Its turns, which read on to the end of the
frame, are those of `discard_stream`. -/
def readArpPacket (inputStrm : In) (again done : ArpPacket → L) : Cmd In Out NetWord V L := do
  let w0 ← readWord inputStrm
  let w1 ← readWord inputStrm
  let w2 ← readWord inputStrm
  let w3 ← readWord inputStrm
  let w4 ← readWord inputStrm
  let w5 ← readWord inputStrm
  let w6 ← readWord inputStrm
  let w7 ← readWord inputStrm
  let w8 ← readWord inputStrm
  let w9 ← readWord inputStrm
  let w10 ← readWord inputStrm
  let w11 ← readWord inputStrm
  let w12 ← readWord inputStrm
  let w13 ← readWord inputStrm
  let w14 ← readWord inputStrm
  let w15 ← readWord inputStrm
  let w16 ← readWord inputStrm
  let w17 ← readWord inputStrm
  let w18 ← readWord inputStrm
  let w19 ← readWord inputStrm
  let w20 ← readWord inputStrm
  let w21 ← readWord inputStrm
  let w22 ← readWord inputStrm
  let w23 ← readWord inputStrm
  let w24 ← readWord inputStrm
  let w25 ← readWord inputStrm
  let w26 ← readWord inputStrm
  let w27 ← readWord inputStrm
  let arpPacket : ArpPacket := {
    htype := w0.data ++ w1.data
    ptype := w2.data ++ w3.data
    hlen := w4.data
    plen := w5.data
    oper := w6.data ++ w7.data
    sha := w8.data ++ w9.data ++ w10.data ++ w11.data ++ w12.data ++ w13.data
    spa := w14.data ++ w15.data ++ w16.data ++ w17.data
    tha := w18.data ++ w19.data ++ w20.data ++ w21.data ++ w22.data ++ w23.data
    tpa := w24.data ++ w25.data ++ w26.data ++ w27.data }
  return if w27.last then done arpPacket else again arpPacket

def writeArpPacket (outputStrm : Out) (arpPacket : ArpPacket) : Cmd In Out NetWord V Unit := do
  writeWord outputStrm ⟨arpPacket.htype.extractLsb 15 8,false,false⟩
  writeWord outputStrm ⟨arpPacket.htype.extractLsb 7 0,false,false⟩
  writeWord outputStrm ⟨arpPacket.ptype.extractLsb 15 8,false,false⟩
  writeWord outputStrm ⟨arpPacket.ptype.extractLsb 7 0,false,false⟩
  writeWord outputStrm ⟨arpPacket.hlen,false,false⟩
  writeWord outputStrm ⟨arpPacket.plen,false,false⟩
  writeWord outputStrm ⟨arpPacket.oper.extractLsb 15 8,false,false⟩
  writeWord outputStrm ⟨arpPacket.oper.extractLsb 7 0,false,false⟩
  writeWord outputStrm ⟨arpPacket.sha.extractLsb 47 40,false,false⟩
  writeWord outputStrm ⟨arpPacket.sha.extractLsb 39 32,false,false⟩
  writeWord outputStrm ⟨arpPacket.sha.extractLsb 31 24,false,false⟩
  writeWord outputStrm ⟨arpPacket.sha.extractLsb 23 16,false,false⟩
  writeWord outputStrm ⟨arpPacket.sha.extractLsb 15 8,false,false⟩
  writeWord outputStrm ⟨arpPacket.sha.extractLsb 7 0,false,false⟩
  writeWord outputStrm ⟨arpPacket.spa.extractLsb 31 24,false,false⟩
  writeWord outputStrm ⟨arpPacket.spa.extractLsb 23 16,false,false⟩
  writeWord outputStrm ⟨arpPacket.spa.extractLsb 15 8,false,false⟩
  writeWord outputStrm ⟨arpPacket.spa.extractLsb 7 0,false,false⟩
  writeWord outputStrm ⟨arpPacket.tha.extractLsb 47 40,false,false⟩
  writeWord outputStrm ⟨arpPacket.tha.extractLsb 39 32,false,false⟩
  writeWord outputStrm ⟨arpPacket.tha.extractLsb 31 24,false,false⟩
  writeWord outputStrm ⟨arpPacket.tha.extractLsb 23 16,false,false⟩
  writeWord outputStrm ⟨arpPacket.tha.extractLsb 15 8,false,false⟩
  writeWord outputStrm ⟨arpPacket.tha.extractLsb 7 0,false,false⟩
  writeWord outputStrm ⟨arpPacket.tpa.extractLsb 31 24,false,false⟩
  writeWord outputStrm ⟨arpPacket.tpa.extractLsb 23 16,false,false⟩
  writeWord outputStrm ⟨arpPacket.tpa.extractLsb 15 8,false,false⟩
  writeWord outputStrm ⟨arpPacket.tpa.extractLsb 7 0,true,false⟩

def arpOf (ws : List NetWord) : ArpPacket where
  htype := octet ws 0 ++ octet ws 1
  ptype := octet ws 2 ++ octet ws 3
  hlen := octet ws 4
  plen := octet ws 5
  oper := octet ws 6 ++ octet ws 7
  sha := macOf (ws.drop 8)
  spa := octet ws 14 ++ octet ws 15 ++ octet ws 16 ++ octet ws 17
  tha := macOf (ws.drop 18)
  tpa := octet ws 24 ++ octet ws 25 ++ octet ws 26 ++ octet ws 27

/-- The bytes before the last one. -/
def arpInit (h : ArpPacket) : List Byte :=
  [h.htype.extractLsb 15 8,h.htype.extractLsb 7 0,h.ptype.extractLsb 15 8,h.ptype.extractLsb 7 0,
    h.hlen,h.plen,h.oper.extractLsb 15 8,h.oper.extractLsb 7 0] ++ macBytes h.sha ++
    wordBytes h.spa ++ macBytes h.tha ++
    [h.tpa.extractLsb 31 24,h.tpa.extractLsb 23 16,h.tpa.extractLsb 15 8]

def arpWords (h : ArpPacket) : List NetWord :=
  (arpInit h).map byteWord ++ [⟨h.tpa.extractLsb 7 0,true,false⟩]

lemma readArpPacket_eq (p : In) (again done : ArpPacket → L) :
    (readArpPacket p again done : Cmd In Out NetWord V L) = readInto p 28 [] >>= fun ws =>
      .ret (if (ws.getD 27 default).last then done (arpOf ws) else again (arpOf ws)) := by
  simp only [readArpPacket, readWord_bind, Cmd.pure_def, readInto_succ_bind, readInto_zero_bind,
    List.nil_append, List.cons_append]
  rfl

lemma writeArpPacket_eq (q : Out) (h : ArpPacket) :
    (writeArpPacket q h : Cmd In Out NetWord V _) = writeAll q (arpWords h) := rfl

end ArpCodec

lemma arpOf_take (f : List NetWord) {n : ℕ} (h : 28 ≤ n) : arpOf (f.take n) = arpOf f := by
  simp only [arpOf, macOf, List.drop_take]
  repeat rw [octet_take _ (by omega)]

lemma arpOf_append (ws rest : List NetWord) (h : 28 ≤ ws.length) :
    arpOf (ws ++ rest) = arpOf ws := by
  rw [← arpOf_take (ws ++ rest) h, List.take_left]

lemma length_arpWords (h : ArpPacket) : (arpWords h).length = 28 := rfl

lemma arpOf_words (h : ArpPacket) (rest : List NetWord) : arpOf (arpWords h ++ rest) = h := by
  obtain ⟨ht, pt, hl, pl, op, sha, spa, tha, tpa⟩ := h
  simp only [arpOf]
  congr 1
  · exact word16_bytes ht
  · exact word16_bytes pt
  · exact word16_bytes op
  · exact word48_bytes sha
  · exact word32_bytes spa
  · exact word48_bytes tha
  · exact word32_bytes tpa

end EncryptionAccelerators.Net
