import EncryptionAccelerators.ArpPacket

/-! What the header writers emit and what the readers take, one against the other. -/
namespace EncryptionAccelerators.Net
open Dataflow

/-- The loop of `read_arp_packet` and its end, where the packet is returned. -/
inductive ArpReadLabel
  | start
  | skip (arpPacket : ArpPacket)
  | done (arpPacket : ArpPacket)

section Codecs
variable {ι In Out A α : Type} {V : A → Type} [DecidableEq In] [DecidableEq Out]
  (mem : Memory ι V) (i : ι) (p : In) (q : Out)

def readArp : ArpReadLabel → Cmd In Out NetWord V ArpReadLabel
  | .start => readArpPacket p .skip .done
  | .skip arpPacket => discardStream p (.skip arpPacket) (.done arpPacket)
  | .done arpPacket => .ret (.done arpPacket)

/-- The command writes the words `ws` to `q` and does nothing else. -/
def Emits (c : Cmd In Out NetWord V Unit) (ws : List NetWord) : Prop :=
  ∀ s : Io In Out NetWord mem.State, exec mem i c s =
    some ((),⟨s.inp,Function.update s.out q (s.out q ++ ws),s.mem⟩)

/-- Where the input starts with `ws` the command takes just these words and returns `a`. -/
def Takes (c : Cmd In Out NetWord V α) (ws : List NetWord) (a : α) : Prop :=
  ∀ (s : Io In Out NetWord mem.State) (rest : List NetWord), s.inp p = ws ++ rest →
    exec mem i c s = some (a,⟨Function.update s.inp p rest,s.out,s.mem⟩)

variable (Out) in
/-- `read_arp_packet` takes just the words `ws` and returns `arpPacket`. -/
def TakesArp (ws : List NetWord) (arpPacket : ArpPacket) : Prop :=
  ∀ (s : Io In Out NetWord mem.State) (rest : List NetWord), s.inp p = ws ++ rest →
    Blocks mem i (readArp p) (.start,s)
      (.done arpPacket,⟨Function.update s.inp p rest,s.out,s.mem⟩)

/-- Reader and writer of a header of `n` words. -/
structure HeaderCodec (n : ℕ) (read : Cmd In Out NetWord V α)
    (write : α → Cmd In Out NetWord V Unit) : Prop where
  roundTrip : ∀ h, ∃ ws, ws.length = n ∧ Emits mem i q (write h) ws ∧ Takes mem i p read ws h
  reproduces : ∀ ws : List NetWord, ws.length = n → ∃ h us, Takes mem i p read ws h ∧
    Emits mem i q (write h) us ∧ us.map NetWord.data = ws.map NetWord.data

/-- Reader and writer of an ARP packet. The packet read is that of the first 28 words, also where
the reader goes on to the end of the frame. -/
structure ArpCodec : Prop where
  roundTrip : ∀ h, ∃ ws w, ws.length = 27 ∧ (∀ x ∈ ws, x.last = false) ∧ w.last = true ∧
    Emits mem i q (writeArpPacket q h : Cmd In Out NetWord V Unit) (ws ++ [w]) ∧
    Takes mem i p (readArp p .start : Cmd In Out NetWord V ArpReadLabel) (ws ++ [w]) (.done h)
  reproduces : ∀ ws : List NetWord, ws.length = 28 → (ws.getD 27 default).last = true →
    ∃ h us, Takes mem i p (readArp p .start : Cmd In Out NetWord V ArpReadLabel) ws (.done h) ∧
      Emits mem i q (writeArpPacket q h : Cmd In Out NetWord V Unit) us ∧
      us.map NetWord.data = ws.map NetWord.data
  reproducesPadded : ∀ (ws padding : List NetWord) (w : NetWord), ws.length = 28 →
    (ws.getD 27 default).last = false → (∀ x ∈ padding, x.last = false) → w.last = true →
    ∃ h us, TakesArp Out mem i p (ws ++ (padding ++ [w])) h ∧
      Emits mem i q (writeArpPacket q h : Cmd In Out NetWord V Unit) us ∧
      us.map NetWord.data = ws.map NetWord.data

/-- The reader `pass` does what `read` does and forwards exactly the words read. -/
structure PassReader (read pass : Cmd In Out NetWord V α) : Prop where
  eachWord : pass = read.forwarding q
  exec_iff : ∀ (s t : Io In Out NetWord mem.State) (h : α), exec mem i pass s = some (h,t) ↔
    ∃ (ws : List NetWord) (u : Io In Out NetWord mem.State), exec mem i read s = some (h,u) ∧
      s.inp p = ws ++ u.inp p ∧ t = ⟨u.inp,Function.update u.out q (u.out q ++ ws),u.mem⟩

lemma emits_writeAll (ws : List NetWord) :
    Emits mem i q (writeAll q ws : Cmd In Out NetWord V Unit) ws :=
  fun s => exec_writeAll mem i q ws s

/-- A reader of a fixed number of words. -/
lemma takes_readInto (f : List NetWord → α) (ws : List NetWord) :
    Takes mem i p (readInto p ws.length [] >>= fun us => .ret (f us) :
      Cmd In Out NetWord V α) ws (f ws) := by
  intro s rest h
  have hle : ws.length ≤ (s.inp p).length := by simp [h]
  rw [exec_readInto_bind mem i p _ _ _ _ hle, exec_ret, h, List.take_left, List.drop_left,
    List.nil_append]

lemma passReader_of_eq {n : ℕ} {f : List NetWord → α} {read pass : Cmd In Out NetWord V α}
    (hread : read = readInto p n [] >>= fun ws => .ret (f ws))
    (hpass : pass = passInto p q n [] >>= fun ws => .ret (f ws)) :
    PassReader mem i p q read pass := by
  subst hread hpass
  refine ⟨(forwarding_readInto p q n [] f).symm, fun s t h => ?_⟩
  constructor
  · intro he
    have hn := length_of_exec_passInto_bind mem i he
    rw [exec_passInto_bind mem i p q _ _ _ _ hn, exec_ret] at he
    obtain ⟨rfl, rfl⟩ := Prod.mk.inj (Option.some.inj he)
    refine ⟨(s.inp p).take n, _, exec_readInto_bind mem i p _ _ _ _ hn, ?_, rfl⟩
    simp
  · rintro ⟨ws, u, he, hs, rfl⟩
    have hn := length_of_exec_readInto_bind mem i he
    rw [exec_readInto_bind mem i p _ _ _ _ hn, exec_ret] at he
    obtain ⟨rfl, rfl⟩ := Prod.mk.inj (Option.some.inj he)
    have hdrop : s.inp p = ws ++ (s.inp p).drop n := by simpa using hs
    have hws : ws = (s.inp p).take n :=
      List.append_cancel_right (hdrop.symm.trans (List.take_append_drop n _).symm)
    rw [exec_passInto_bind mem i p q _ _ _ _ hn, exec_ret, hws]

/-- A codec from the bytes `bytes` written and the function `f` of the words read. -/
lemma headerCodec_of_eq {n : ℕ} {f : List NetWord → α} {bytes : α → List Byte}
    {read : Cmd In Out NetWord V α} {write : α → Cmd In Out NetWord V Unit}
    (hread : read = readInto p n [] >>= fun ws => .ret (f ws))
    (hwrite : ∀ h, write h = writeAll q ((bytes h).map byteWord))
    (hn : ∀ h, (bytes h).length = n) (hf : ∀ h, f ((bytes h).map byteWord) = h)
    (hb : ∀ ws : List NetWord, ws.length = n → bytes (f ws) = ws.map NetWord.data) :
    HeaderCodec mem i p q n read write := by
  subst hread
  constructor
  · intro h
    have hlen : ((bytes h).map byteWord).length = n := by rw [List.length_map, hn]
    have ht : Takes mem i p (_ : Cmd In Out NetWord V α) _ _ :=
      takes_readInto mem i p f ((bytes h).map byteWord)
    rw [hlen, hf] at ht
    refine ⟨_, hlen, ?_, ht⟩
    rw [hwrite]
    exact emits_writeAll mem i q _
  · intro ws hws
    have ht : Takes mem i p (_ : Cmd In Out NetWord V α) _ _ := takes_readInto mem i p f ws
    rw [hws] at ht
    refine ⟨f ws, (bytes (f ws)).map byteWord, ht, ?_, ?_⟩
    · rw [hwrite]
      exact emits_writeAll mem i q _
    · rw [hb ws hws, List.map_map]
      exact List.map_id _

end Codecs

/-! Writing back what was read. -/

lemma data_eq_octets (ws : List NetWord) :
    ws.map NetWord.data = (List.range ws.length).map (octet ws) := by
  simpa using take_data ws le_rfl

lemma bytes_word16 (a b : Byte) : (a ++ b : BitVec 16).extractLsb 15 8 = a ∧
    (a ++ b : BitVec 16).extractLsb 7 0 = b :=
  ⟨BitVec.extractLsb'_append_eq_left, BitVec.extractLsb'_append_eq_right⟩

lemma nibbles (a : Byte) : a.extractLsb 7 4 ++ a.extractLsb 3 0 = a := by
  ext k hk
  simp
  grind

lemma bytes_fragOffset (a b : Byte) :
    (a.extractLsb 7 5 ++ (a.extractLsb 4 0 ++ b : BitVec 13).extractLsb 12 8 : Byte) = a ∧
      (a.extractLsb 4 0 ++ b : BitVec 13).extractLsb 7 0 = b := by
  constructor
  · have hhi : (a.extractLsb 4 0 ++ b : BitVec 13).extractLsb 12 8 = a.extractLsb 4 0 :=
      BitVec.extractLsb'_append_eq_left
    rw [hhi]
    ext k hk
    simp
    grind
  · exact BitVec.extractLsb'_append_eq_right

lemma dscp_ecn (a : Byte) : (a.extractLsb 7 2 ++ a.extractLsb 1 0 : Byte) = a := by
  ext k hk
  simp
  grind

lemma macBytes_macOf (ws : List NetWord) : macBytes (macOf ws) =
    [octet ws 0,octet ws 1,octet ws 2,octet ws 3,octet ws 4,octet ws 5] := by
  simp only [macBytes, macOf, List.cons.injEq, and_true]
  refine ⟨?_, ?_, ?_, ?_, ?_, ?_⟩ <;> ext k hk <;> simp <;> grind

lemma ethernetBytes_of (ws : List NetWord) (h : ws.length = 14) :
    ethernetBytes (ethernetOf ws) = ws.map NetWord.data := by
  rw [data_eq_octets, h, ethernetBytes, ethernetOf, macBytes_macOf, macBytes_macOf]
  obtain ⟨hhi, hlo⟩ := bytes_word16 (octet ws 12) (octet ws 13)
  simp only [hhi, hlo, octet_drop]
  rfl

lemma ipv4Bytes_of (ws : List NetWord) (h : ws.length = 20) :
    ipv4Bytes (ipv4Of ws) = ws.map NetWord.data := by
  rw [data_eq_octets, h]
  simp only [ipv4Bytes, ipv4Of, nibbles, dscp_ecn, bytes_word16, bytes_fragOffset]
  have hsrc := wordBytes_append (octet ws 12) (octet ws 13) (octet ws 14) (octet ws 15)
  have hdst := wordBytes_append (octet ws 16) (octet ws 17) (octet ws 18) (octet ws 19)
  simp only [wordBytes, List.cons.injEq, and_true] at hsrc hdst
  obtain ⟨h12, h13, h14, h15⟩ := hsrc
  obtain ⟨h16, h17, h18, h19⟩ := hdst
  rw [h12, h13, h14, h15, h16, h17, h18, h19]
  rfl

lemma udpBytes_of (ws : List NetWord) (h : ws.length = 8) :
    udpBytes (udpOf ws) = ws.map NetWord.data := by
  rw [data_eq_octets, h]
  simp only [udpBytes, udpOf, bytes_word16]
  rfl

lemma arpWords_of (ws : List NetWord) (h : ws.length = 28) :
    (arpWords (arpOf ws)).map NetWord.data = ws.map NetWord.data := by
  have hdata : (arpWords (arpOf ws)).map NetWord.data =
      arpInit (arpOf ws) ++ [(arpOf ws).tpa.extractLsb 7 0] := rfl
  rw [hdata, data_eq_octets, h]
  have htpa := wordBytes_append (octet ws 24) (octet ws 25) (octet ws 26) (octet ws 27)
  simp only [arpInit, arpOf, macBytes_macOf, octet_drop, bytes_word16, wordBytes_append]
  simp only [wordBytes, List.cons.injEq, and_true] at htpa
  obtain ⟨h24, h25, h26, h27⟩ := htpa
  rw [h24, h25, h26, h27]
  rfl

section Codecs
variable {ι In Out A : Type} {V : A → Type} [DecidableEq In] [DecidableEq Out]
  (mem : Memory ι V) (i : ι) (p : In) (q : Out)

/-- What the writer of an ARP packet emits is read in one block. -/
lemma takes_readArp (ws : List NetWord) (h : ws.length = 28) :
    Takes mem i p (readArp p .start : Cmd In Out NetWord V ArpReadLabel) ws
      (if (ws.getD 27 default).last then .done (arpOf ws) else .skip (arpOf ws)) := by
  have ht : Takes mem i p (_ : Cmd In Out NetWord V ArpReadLabel) _ _ := takes_readInto mem i p
    (fun us => if (us.getD 27 default).last then .done (arpOf us) else .skip (arpOf us)) ws
  rw [h, ← readArpPacket_eq] at ht
  exact ht

lemma emits_writeArpPacket (h : ArpPacket) :
    Emits mem i q (writeArpPacket q h : Cmd In Out NetWord V Unit) (arpWords h) := by
  rw [writeArpPacket_eq]
  exact emits_writeAll mem i q _

/-- Where the 28th word is not the last, the rest of the frame is dropped. -/
lemma takesArp_padded (ws padding : List NetWord) (w : NetWord) (h : ws.length = 28)
    (hw : (ws.getD 27 default).last = false) (hp : ∀ x ∈ padding, x.last = false)
    (hl : w.last = true) :
    TakesArp Out mem i p (ws ++ (padding ++ [w])) (arpOf ws) := by
  intro s rest hs
  have ht : Takes mem i p (readArp p .start : Cmd In Out NetWord V ArpReadLabel) ws _ :=
    takes_readArp mem i p ws h
  have hstart := ht s (padding ++ w::rest) (by simpa using hs)
  rw [hw] at hstart
  refine .head hstart ?_
  have hskip := (discardStream_until mem i (readArp p) p .start (.skip (arpOf ws)) (.done (arpOf ws))
    nofun rfl padding rest w hp hl ⟨Function.update s.inp p (padding ++ w::rest),s.out,s.mem⟩
    (Function.update_self _ _ _)).blocks
  rw [Function.update_idem] at hskip
  exact hskip

lemma arpCodec : ArpCodec mem i p q := by
  constructor
  · intro h
    have ht : Takes mem i p (readArp p .start : Cmd In Out NetWord V ArpReadLabel) _ _ :=
      takes_readArp mem i p (arpWords h) (length_arpWords h)
    have hof := arpOf_words h []
    rw [List.append_nil] at hof
    rw [hof] at ht
    exact ⟨(arpInit h).map byteWord, _, rfl, fun x hx => byteWord_last hx, rfl,
      emits_writeArpPacket mem i q h, ht⟩
  · intro ws h hw
    have ht : Takes mem i p (readArp p .start : Cmd In Out NetWord V ArpReadLabel) ws _ :=
      takes_readArp mem i p ws h
    rw [hw] at ht
    exact ⟨arpOf ws, _, ht, emits_writeArpPacket mem i q _, arpWords_of ws h⟩
  · intro ws padding w h hw hp hl
    exact ⟨arpOf ws, _, takesArp_padded mem i p ws padding w h hw hp hl,
      emits_writeArpPacket mem i q _, arpWords_of ws h⟩

/-- Each reader takes back what its writer emits, each writer gives the bytes its reader took, and
the two families of readers agree. -/
theorem header_codecs :
    HeaderCodec mem i p q 14 (readEthernetHeader p) (writeEthernetHeader q) ∧
    HeaderCodec mem i p q 20 (readIpHeader p) (writeIpHeader q) ∧
    HeaderCodec mem i p q 8 (readUdpHeader p) (writeUdpHeader q) ∧
    ArpCodec mem i p q ∧
    PassReader mem i p q (readIpHeader p) (readPassIpv4Header p q) ∧
    PassReader mem i p q (readUdpHeader p) (readPassUdpHeader p q) := by
  have heth : ∀ h, ethernetOf ((ethernetBytes h).map byteWord) = h := by
    intro h
    simpa using ethernetOf_bytes h []
  have hip : ∀ h, ipv4Of ((ipv4Bytes h).map byteWord) = h := by
    intro h
    simpa using ipv4Of_bytes h []
  have hudp : ∀ h, udpOf ((udpBytes h).map byteWord) = h := by
    intro h
    simpa using udpOf_bytes h []
  refine ⟨?_, ?_, ?_, arpCodec mem i p q, ?_, ?_⟩
  · exact headerCodec_of_eq mem i p q (readEthernetHeader_eq p) (writeEthernetHeader_eq q)
      (fun _ => rfl) heth ethernetBytes_of
  · exact headerCodec_of_eq mem i p q (readIpHeader_eq p) (writeIpHeader_eq q) (fun _ => rfl) hip
      ipv4Bytes_of
  · exact headerCodec_of_eq mem i p q (readUdpHeader_eq p) (writeUdpHeader_eq q) (fun _ => rfl) hudp
      udpBytes_of
  · exact passReader_of_eq mem i p q (readIpHeader_eq p) (readPassIpv4Header_eq p q)
  · exact passReader_of_eq mem i p q (readUdpHeader_eq p) (readPassUdpHeader_eq p q)

end Codecs

end EncryptionAccelerators.Net
