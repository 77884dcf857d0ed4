import EncryptionAccelerators.DesKeySchedule
import EncryptionAccelerators.AesKeyExpansion
import EncryptionAccelerators.NetHeaders

/-! One pass of the control loop of `main.cc`: it reads the key from the register space, loads
both cipher cores and sets the switches. -/
namespace EncryptionAccelerators.Net
open Dataflow

def XPAR_AXI_BRAM_CTRL_0_S_AXI_BASEADDR : BitVec 32 := 0xC0000000
def SLAVE_0 : BitVec 32 := 0

/-- The arrays of the program that keep their contents from one pass to the next. -/
structure ControlState where
  inputKey : Vector Byte 16
  keySets : Vector KeySet 17
  keySetsK : Vector (Vector Byte 17) 8
  aesExpandedKey : Vector Byte 176

/-- The register space word at `XPAR_AXI_BRAM_CTRL_0_S_AXI_BASEADDR + 4*i`. -/
def keyRegister (i : ℕ) : BitVec 32 :=
  (XPAR_AXI_BRAM_CTRL_0_S_AXI_BASEADDR + 4*BitVec.ofNat 32 i) >>> 2

/-- `generate_sub_keys` uses the first eight bytes. -/
def desKey (inputKey : Vector Byte 16) : Vector Byte 8 := .ofFn fun i => inputKey[i]

/-- `key_sets_k`. -/
def keyColumns (keySets : Vector KeySet 17) : Vector (Vector Byte 17) 8 :=
  .ofFn fun i => .ofFn fun j => keySets[j].k[i]

/-- `input_key` made of the four words read. -/
def keyOf (keyReg : Fin 4 → BitVec 32) : Vector Byte 16 :=
  toBlock 16 (wordBytes (keyReg 0) ++ wordBytes (keyReg 1) ++ wordBytes (keyReg 2) ++
    wordBytes (keyReg 3))

/-- Word `i` of a key, the first byte on top. -/
def keyWord (K : Vector Byte 16) (i : Fin 4) : BitVec 32 :=
  K[4*i.val] ++ K[4*i.val + 1] ++ K[4*i.val + 2] ++ K[4*i.val + 3]

lemma keyOf_keyWord (K : Vector Byte 16) : keyOf (keyWord K) = K := by
  have hw (i : Fin 4) : wordBytes (keyWord K i) =
      [K[4*i.val],K[4*i.val + 1],K[4*i.val + 2],K[4*i.val + 3]] := wordBytes_append _ _ _ _
  rw [keyOf, hw, hw, hw, hw]
  refine Vector.ext fun j hj => ?_
  rw [toBlock, Vector.getElem_ofFn]
  interval_cases j <;> rfl

lemma append_extractLsb (x : BitVec 32) : x.extractLsb 31 24 ++ x.extractLsb 23 16 ++
    x.extractLsb 15 8 ++ x.extractLsb 7 0 = x := by
  ext i hi
  simp
  grind

lemma keyWord_keyOf (keyReg : Fin 4 → BitVec 32) : keyWord (keyOf keyReg) = keyReg := by
  funext i
  fin_cases i <;> simp [keyWord, keyOf, toBlock, wordBytes] <;> exact append_extractLsb _

section ControlLoop
variable {ι In Out W : Type}

/-- The four reads of the key. -/
def readInputKey : Cmd In Out W Cell.Val (Vector Byte 16) := do
  let key0 ← loadCell (.bram (keyRegister 0))
  let key1 ← loadCell (.bram (keyRegister 1))
  let key2 ← loadCell (.bram (keyRegister 2))
  let key3 ← loadCell (.bram (keyRegister 3))
  return keyOf ![key0,key1,key2,key3]

/-- The schedules of the key and the column writes to both cores. -/
def loadCores (st : ControlState) (inputKey : Vector Byte 16) :
    Cmd In Out W Cell.Val ControlState := do
  let keySets := generateSubKeys (desKey inputKey) (st.keySets.map fun _ => .zero)
  let keySetsK := keyColumns keySets
  forEach (List.finRange 8) fun i => storeCell (.keySetsK i) keySetsK[i]
  let aesExpandedKey :=
    KeyExpansion inputKey.toList (st.aesExpandedKey.map fun _ => 0).toList 128
  forEach (List.finRange 16) fun i =>
    storeCell (.aesW i) (aesExpanedKeySelectCol i aesExpandedKey)
  return ⟨inputKey,keySets,keySetsK,toBlock 176 aesExpandedKey⟩

/-- The core and the DES mode the DIP switches select. -/
def setSwitches (st : ControlState) : Cmd In Out W Cell.Val ControlState := do
  let dipsw ← loadCell .dipSwitches
  let enabledMaster := dipsw &&& 0x01
  storeCell .rawDataSwitch (enabledMaster,SLAVE_0)
  storeCell .desMode (((dipsw &&& 0x02) >>> 1).setWidth 1)
  return st

/-- The pass up to the test of the SD switch. -/
def controlPass (st : ControlState) : Cmd In Out W Cell.Val ControlState := do
  let inputKey ← readInputKey
  let st ← loadCores st inputKey
  setSwitches st

/-- The key in the register space. -/
def storedKey (m : (c : Cell) → c.Val) : Vector Byte 16 :=
  keyOf fun i => m (.bram (keyRegister i))

/-- The tables on the ports of the two cores, from their columns. -/
def desTable (cols : Fin 8 → Vector Byte 17) : KeyTable := .ofFn fun j => .ofFn fun i => (cols i)[j]

def aesTable (cols : Fin 16 → Vector Byte 11) : RoundKeyTable :=
  .ofFn fun r => .ofFn fun i => (cols i).get r

def desColumns (m : (c : Cell) → c.Val) (i : Fin 8) : Vector Byte 17 := m (.keySetsK i)

def aesColumns (m : (c : Cell) → c.Val) (i : Fin 16) : Vector Byte 11 := m (.aesW i)

/-- The columns a pass writes for a key. -/
def desColumnsOf (inputKey : Vector Byte 16) (i : Fin 8) : Vector Byte 17 :=
  (keyColumns (generateSubKeys (desKey inputKey) (.replicate 17 .zero)))[i]

def aesColumnsOf (inputKey : Vector Byte 16) (i : Fin 16) : Vector Byte 11 :=
  aesExpanedKeySelectCol i (KeyExpansion inputKey.toList (.replicate 176 0) 128)

/-- The tables that belong to a key. -/
def desSchedule (inputKey : Vector Byte 16) : KeyTable :=
  keyTable (generateSubKeys (desKey inputKey) (.replicate 17 .zero))

def aesSchedule (inputKey : Vector Byte 16) : RoundKeyTable :=
  columnsTable fun i => aesExpanedKeySelectCol i (KeyExpansion inputKey.toList (.replicate 176 0) 128)

lemma desTable_desColumnsOf (inputKey : Vector Byte 16) :
    desTable (desColumnsOf inputKey) = desSchedule inputKey := by
  rw [desSchedule]
  unfold desColumnsOf
  generalize generateSubKeys (desKey inputKey) (.replicate 17 .zero) = keySets
  refine Vector.ext fun j hj => Vector.ext fun i hi => ?_
  simp [desTable, keyColumns, keyTable]

lemma aesTable_aesColumnsOf (inputKey : Vector Byte 16) :
    aesTable (aesColumnsOf inputKey) = aesSchedule inputKey := by
  rw [aesSchedule]
  unfold aesColumnsOf
  generalize KeyExpansion inputKey.toList (.replicate 176 0) 128 = expanded
  refine Vector.ext fun j hj => Vector.ext fun i hi => ?_
  simp [aesTable, columnsTable]

/-- The memory after the column writes of a pass. -/
def loaded (m : (c : Cell) → c.Val) (des : Fin 8 → Vector Byte 17) (aes : Fin 16 → Vector Byte 11) :
    (c : Cell) → c.Val :=
  (List.finRange 16).foldl (fun m i => Function.update m (.aesW i) (aes i))
    ((List.finRange 8).foldl (fun m i => Function.update m (.keySetsK i) (des i)) m)

lemma desColumns_loaded (m : (c : Cell) → c.Val) (des : Fin 8 → Vector Byte 17)
    (aes : Fin 16 → Vector Byte 11) : desColumns (loaded m des aes) = des := by
  funext i
  refine (foldl_update_of_ne (V := Cell.Val) Cell.aesW aes _ _ (by simp)).trans ?_
  exact foldl_update (V := Cell.Val) Cell.keySetsK des (fun _ _ => Cell.keySetsK.inj) _ _
    (List.mem_finRange i)

lemma aesColumns_loaded (m : (c : Cell) → c.Val) (des : Fin 8 → Vector Byte 17)
    (aes : Fin 16 → Vector Byte 11) : aesColumns (loaded m des aes) = aes := by
  funext i
  exact foldl_update (V := Cell.Val) Cell.aesW aes (fun _ _ => Cell.aesW.inj) _ _
    (List.mem_finRange i)

variable [DecidableEq In] [DecidableEq Out] (i : ι)

lemma exec_readInputKey_bind {β : Type} (f : Vector Byte 16 → Cmd In Out W Cell.Val β)
    (s : Io In Out W ((c : Cell) → c.Val)) :
    exec (Memory.shared ι Cell.Val) i (readInputKey >>= f) s =
      exec (Memory.shared ι Cell.Val) i (f (storedKey s.mem)) s := rfl

lemma map_zero {α : Type} {n : ℕ} (v : Vector α n) {β : Type} (b : β) :
    v.map (fun _ => b) = .replicate n b := by
  refine Vector.ext fun j hj => ?_
  simp

lemma exec_writeColumns_bind {β : Type} (des : Fin 8 → Vector Byte 17)
    (aes : Fin 16 → Vector Byte 11) (k : Unit → Cmd In Out W Cell.Val β)
    (s : Io In Out W ((c : Cell) → c.Val)) : exec (Memory.shared ι Cell.Val) i
        (forEach (List.finRange 8) (fun j => storeCell (.keySetsK j) (des j)) >>= fun _ =>
          forEach (List.finRange 16) (fun j => storeCell (.aesW j) (aes j)) >>= k) s =
      exec (Memory.shared ι Cell.Val) i (k ()) ⟨s.inp,s.out,loaded s.mem des aes⟩ :=
  (exec_forEach_bind (Memory.shared ι Cell.Val) i (List.finRange 8)
    (fun j => storeCell (.keySetsK j) (des j)) (fun m j => Function.update m (.keySetsK j) (des j))
    (fun _ _ => rfl) _ s).trans <|
  exec_forEach_bind (Memory.shared ι Cell.Val) i (List.finRange 16)
    (fun j => storeCell (.aesW j) (aes j)) (fun m j => Function.update m (.aesW j) (aes j))
    (fun _ _ => rfl) k _

/-- The arrays after a pass that has read `inputKey`. -/
def reloaded (inputKey : Vector Byte 16) : ControlState where
  inputKey := inputKey
  keySets := generateSubKeys (desKey inputKey) (.replicate 17 .zero)
  keySetsK := keyColumns (generateSubKeys (desKey inputKey) (.replicate 17 .zero))
  aesExpandedKey := toBlock 176 (KeyExpansion inputKey.toList (.replicate 176 0) 128)

/-- Whatever the arrays and the cores held before, the tables become those of the key. -/
lemma exec_loadCores_bind {β : Type} (st : ControlState) (inputKey : Vector Byte 16)
    (f : ControlState → Cmd In Out W Cell.Val β) (s : Io In Out W ((c : Cell) → c.Val)) :
    exec (Memory.shared ι Cell.Val) i (loadCores st inputKey >>= f) s =
      exec (Memory.shared ι Cell.Val) i (f (reloaded inputKey))
        ⟨s.inp,s.out,loaded s.mem (desColumnsOf inputKey) (aesColumnsOf inputKey)⟩ := by
  have hkeys : (st.keySets.map fun _ => KeySet.zero) = .replicate 17 .zero := map_zero _ _
  have haes : (st.aesExpandedKey.map fun _ => (0 : Byte)).toList = .replicate 176 0 := by
    rw [map_zero]
    exact Vector.toList_replicate
  simp only [loadCores, hkeys, haes, Cmd.bind_bind, Cmd.pure_def, Cmd.ret_bind]
  exact exec_writeColumns_bind i (desColumnsOf inputKey) (aesColumnsOf inputKey)
    (fun _ => f (reloaded inputKey)) s

/-- The memory after the switches have been set. -/
def switched (m : (c : Cell) → c.Val) : (c : Cell) → c.Val :=
  Function.update (Function.update m .rawDataSwitch (m .dipSwitches &&& 0x01,SLAVE_0)) .desMode
    (((m .dipSwitches &&& 0x02) >>> 1).setWidth 1)

/-- An uninterrupted pass leaves both cores with the tables of the stored key. -/
lemma exec_controlPass (st : ControlState) (s : Io In Out W ((c : Cell) → c.Val)) :
    exec (Memory.shared ι Cell.Val) i (controlPass st) s = some (reloaded (storedKey s.mem),
      ⟨s.inp,s.out,switched (loaded s.mem (desColumnsOf (storedKey s.mem))
        (aesColumnsOf (storedKey s.mem)))⟩) :=
  (exec_readInputKey_bind i _ s).trans
    (exec_loadCores_bind i st (storedKey s.mem) setSwitches s)

end ControlLoop

lemma desColumns_switched (m : (c : Cell) → c.Val) : desColumns (switched m) = desColumns m := by
  funext i
  simp [desColumns, switched]

lemma aesColumns_switched (m : (c : Cell) → c.Val) : aesColumns (switched m) = aesColumns m := by
  funext i
  simp [aesColumns, switched]

end EncryptionAccelerators.Net
