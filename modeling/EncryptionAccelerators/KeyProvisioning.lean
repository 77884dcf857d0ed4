import EncryptionAccelerators.ControlLoop
import EncryptionAccelerators.RegisterCoherence
import EncryptionAccelerators.AesKeySchedule

/-! A key on its way from a write request to the tables of the two cores. -/
namespace EncryptionAccelerators.Net
open Dataflow BitString

/-- The payload that stores a key as four big-endian words from the base address on. -/
def keyPayload (K : Vector Byte 16) : List Byte :=
  [0xc0,0x00,0x00,0x00,K[0],K[1],K[2],K[3],0xc0,0x00,0x00,0x04,K[4],K[5],K[6],K[7],
    0xc0,0x00,0x00,0x08,K[8],K[9],K[10],K[11],0xc0,0x00,0x00,0x0c,K[12],K[13],K[14],K[15]]

/-- Byte `j` of the payload. -/
lemma octet_payload {f : List NetWord} {bs : List Byte}
    (h : ((f.drop 42).take bs.length).map NetWord.data = bs) {j : ℕ} (hj : j < bs.length) :
    octet f (42 + j) = bs.getD j 0 := by
  have hl : j < (((f.drop 42).take bs.length).map NetWord.data).length := by rw [h]; exact hj
  have hb : (((f.drop 42).take bs.length).map NetWord.data)[j] = bs[j] := by simp only [h]
  have hf : 42 + j < f.length := by simp at hl; omega
  rw [List.getD_eq_getElem _ _ hj, ← hb, octet, List.getD_eq_getElem _ _ hf]
  simp

/-- The request asks for the four key words at the four key registers. -/
lemma writePairs_key {f : List NetWord} {K : Vector Byte 16}
    (h : ((f.drop 42).take 32).map NetWord.data = keyPayload K) :
    writePairs f 42 4 = (List.finRange 4).map fun i : Fin 4 =>
      (XPAR_AXI_BRAM_CTRL_0_S_AXI_BASEADDR + 4*BitVec.ofNat 32 i,keyWord K i) := by
  have hlen : (keyPayload K).length = 32 := rfl
  rw [← hlen] at h
  have hb {j : ℕ} (hj : j < 32) : octet f (42 + j) = (keyPayload K).getD j 0 := octet_payload h hj
  have hword (j : ℕ) (hj : j + 4 ≤ 32) : regWord (f.drop (42 + j)) =
      (keyPayload K).getD j 0 ++ (keyPayload K).getD (j + 1) 0 ++ (keyPayload K).getD (j + 2) 0 ++
        (keyPayload K).getD (j + 3) 0 := by
    simp only [regWord, octet_drop, Nat.add_assoc, Nat.add_zero]
    rw [hb (by omega), hb (by omega), hb (by omega), hb (by omega)]
  have haddr : ∀ i : Fin 4, 0xc0#8 ++ 0x00#8 ++ 0x00#8 ++ BitVec.ofNat 8 (4*i) =
      XPAR_AXI_BRAM_CTRL_0_S_AXI_BASEADDR + 4*BitVec.ofNat 32 i := by decide
  simp only [← haddr, writePairs, Nat.reduceAdd]
  rw [hword 0 (by omega), hword 4 (by omega), hword 8 (by omega), hword 12 (by omega),
    hword 16 (by omega), hword 20 (by omega), hword 24 (by omega), hword 28 (by omega)]
  rfl

lemma keyRegister_injective : Function.Injective fun i : Fin 4 => Cell.bram (keyRegister i) := by
  decide

/-- The register space holds the key after the request. -/
lemma storedKey_request {f : List NetWord} {K : Vector Byte 16}
    (h : ((f.drop 42).take 32).map NetWord.data = keyPayload K) (m : (c : Cell) → c.Val) :
    storedKey (storePairs m (writePairs f 42 4)) = K := by
  have hreg (i : Fin 4) : storePairs m (writePairs f 42 4) (.bram (keyRegister i)) = keyWord K i := by
    rw [writePairs_key h, storePairs, List.foldl_map]
    exact foldl_update (V := Cell.Val) (fun i : Fin 4 => Cell.bram (keyRegister i)) (keyWord K)
      keyRegister_injective _ _ (List.mem_finRange i)
  exact (congrArg keyOf (funext hreg)).trans (keyOf_keyWord K)

/-- One write request and one pass of the control loop: the tables on the ports of both cores are
the key schedules of the standards. -/
theorem key_provisioning (K : Vector Byte 16) (f : Frame) (hf : WriteFrame f.words 4)
    (hK : ((f.words.drop 42).take 32).map NetWord.data = keyPayload K) (rest : List NetWord)
    (out : OutputStrm → List NetWord) (m : (c : Cell) → c.Val) (st : ControlState) :
    ∃ (m₁ m₂ : (c : Cell) → c.Val) (st' : ControlState),
      (∀ t, Invokes (Memory.shared Unit Cell.Val) () udpReg .start
        ⟨fun _ => f.words ++ rest,out,m⟩ t ↔ t = ⟨fun _ => rest,out,m₁⟩) ∧
      exec (Memory.shared Unit Cell.Val) ()
        (controlPass st : Cmd InputStrm OutputStrm NetWord Cell.Val ControlState)
        ⟨fun _ => [],out,m₁⟩ = some (st',⟨fun _ => [],out,m₂⟩) ∧
      (∀ r, 1 ≤ r → r ≤ 16 → ∀ b < 6,
        ((desTable (desColumns m₂)).getD r (.replicate 8 0)).getD b 0 =
          byteOf (Fips46.K (ofBytes (desKey K)) r) b) ∧
      ∀ r < 11, ∀ (b : Fin 4) (w : Fin 4),
        ((aesTable (aesColumns m₂)).getD r (.replicate 16 0)).getD (b + w*4) 0 =
          ((Fips197.keyExpansion 4 (getWord K.toList)).getD (4*r + w) (.replicate 4 0))[b] := by
  have hinv := hf.invokes (Memory.shared Unit Cell.Val) () out m rest
  rw [storeAll_shared, hf.writesOf_eq] at hinv
  have hkey := storedKey_request hK m
  have hpass := exec_controlPass () st (⟨fun _ => [],out,storePairs m (writePairs f.words 42 4)⟩ :
    Io InputStrm OutputStrm NetWord ((c : Cell) → c.Val))
  rw [hkey] at hpass
  refine ⟨_, _, _, fun t => ⟨fun h => h.deterministic hinv, fun h => h ▸ hinv⟩, hpass, ?_, ?_⟩
  · intro r h1 h16 b hb
    have hrow := congrArg (byteOf · b) (keyBits_keyTable (desKey K) h1 h16)
    simp only [keyBits, byteOf_ofBytes] at hrow
    rw [desColumns_switched, desColumns_loaded, desTable_desColumnsOf, desSchedule, ← hrow,
      getD_ofFn _ _ hb]
  · rw [aesColumns_switched, aesColumns_loaded, aesTable_aesColumnsOf]
    exact rowsAre_columnsTable K.toList (.replicate 176 0) List.length_replicate.ge

/-- The hypotheses of `key_provisioning` hold of a request for the key `00 01 … 0f`. -/
theorem key_provisioning_request :
    let K : Vector Byte 16 := .ofFn fun i => BitVec.ofNat 8 i
    let f := requestFrame 50000 40 (keyPayload K)
    ∃ (m₁ m₂ : (c : Cell) → c.Val) (st st' : ControlState),
      Invokes (Memory.shared Unit Cell.Val) () udpReg .start
        ⟨fun _ => f.words ++ [],fun _ => [],Cell.zero⟩ ⟨fun _ => [],fun _ => [],m₁⟩ ∧
      exec (Memory.shared Unit Cell.Val) ()
        (controlPass st : Cmd InputStrm OutputStrm NetWord Cell.Val ControlState)
        ⟨fun _ => [],fun _ => [],m₁⟩ = some (st',⟨fun _ => [],fun _ => [],m₂⟩) ∧
      ((desTable (desColumns m₂)).getD 1 (.replicate 8 0)).getD 0 0 =
        byteOf (Fips46.K (ofBytes (desKey K)) 1) 0 ∧
      ((aesTable (aesColumns m₂)).getD 10 (.replicate 16 0)).getD 15 0 =
        ((Fips197.keyExpansion 4 (getWord K.toList)).getD 43 (.replicate 4 0))[3] := by
  intro K f
  have hf : WriteFrame f.words 4 :=
    ⟨by decide, by decide, by decide, by decide, by decide, by decide⟩
  obtain ⟨m₁, m₂, st', hinv, hpass, hdes, haes⟩ := key_provisioning K f hf (by decide) []
    (fun _ => []) Cell.zero ⟨.replicate 16 0,.replicate 17 .zero,.replicate 8 (.replicate 17 0),
      .replicate 176 0⟩
  exact ⟨m₁, m₂, _, st', (hinv _).2 rfl, hpass, hdes 1 (by omega) (by omega) 0 (by omega),
    haes 10 (by omega) 3 3⟩

end EncryptionAccelerators.Net
