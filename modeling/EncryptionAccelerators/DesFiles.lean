import EncryptionAccelerators.DesRoundTrip

/-! `run_des.c`: a file is encrypted or decrypted block by block, the last block with its padding. -/
namespace EncryptionAccelerators.Net

/-- `fread` of a block from what is left of the file: the bytes read replace the first of the
block. -/
def freadBlock (dataBlock : Vector Byte 8) (inputFile : List Byte) : Vector Byte 8 :=
  .ofFn fun i => inputFile.getD i (dataBlock.get i)

/-- `memset` of the last `padding` bytes to `padding`. -/
def memsetPadding (dataBlock : Vector Byte 8) (padding : ℕ) : Vector Byte 8 :=
  .ofFn fun i => if i.val < 8 - padding then dataBlock.get i else .ofNat 8 padding

def numberOfBlocks (fileSize : ℕ) : ℕ := fileSize/8 + if fileSize%8 ≠ 0 then 1 else 0

/-- `main` before a turn of its loop. `inputFile` is what is left to read. -/
structure FileLoop where
  inputFile : List Byte
  blockCount : ℕ
  dataBlock : Vector Byte 8
  outputFile : List Byte

/-- What is written for the block just read. -/
def writtenBlock (keySetsK : KeyTable) (processMode : BitVec 1) (fileSize blockCount : ℕ)
    (dataBlock : Vector Byte 8) : List Byte :=
  if blockCount = numberOfBlocks fileSize then
    if processMode = ENCRYPTION_MODE then
      let padding := 8 - fileSize%8
      let dataBlock := if padding < 8 then memsetPadding dataBlock padding else dataBlock
      let processedBlock := processMessage keySetsK processMode dataBlock
      if padding = 8 then
        -- an extra block for the padding
        let extraBlock := processMessage keySetsK processMode (memsetPadding dataBlock padding)
        processedBlock.toList ++ extraBlock.toList
      else processedBlock.toList
    else
      let processedBlock := processMessage keySetsK processMode dataBlock
      let padding := processedBlock[7].toNat
      if padding < 8 then processedBlock.toList.take (8 - padding) else []
  else (processMessage keySetsK processMode dataBlock).toList

def fileTurn (keySetsK : KeyTable) (processMode : BitVec 1) (fileSize : ℕ) (s : FileLoop) :
    FileLoop :=
  let dataBlock := freadBlock s.dataBlock s.inputFile
  let blockCount := s.blockCount + 1
  { inputFile := s.inputFile.drop 8
    blockCount
    dataBlock := .replicate 8 0
    outputFile := s.outputFile ++ writtenBlock keySetsK processMode fileSize blockCount dataBlock }

/-- The loop ends when `fread` finds nothing left. -/
def fileLoop (keySetsK : KeyTable) (processMode : BitVec 1) (fileSize : ℕ) (s : FileLoop) :
    List Byte :=
  if s.inputFile = [] then s.outputFile
  else fileLoop keySetsK processMode fileSize (fileTurn keySetsK processMode fileSize s)
termination_by s.inputFile.length
decreasing_by
  have hpos : 0 < s.inputFile.length := List.length_pos_iff.mpr ‹_›
  simp only [fileTurn, List.length_drop]
  omega

/-- The output file of a run on a file; `dataBlock` is what the block holds when it is allocated. -/
def runDes (keySetsK : KeyTable) (processMode : BitVec 1) (dataBlock : Vector Byte 8)
    (inputFile : List Byte) : List Byte :=
  fileLoop keySetsK processMode inputFile.length ⟨inputFile,0,dataBlock,[]⟩

/-! What the two runs are for: a file, unless it is empty, is filled up to whole blocks with bytes
that tell how many they are. -/

def padded (file : List Byte) : List Byte :=
  if file = [] then []
  else file ++ List.replicate (8 - file.length%8) (.ofNat 8 (8 - file.length%8))

def unpadded (bytes : List Byte) : List Byte :=
  bytes.take (bytes.length - min 8 (bytes.getLastD 0).toNat)

lemma length_padded (file : List Byte) : 8 ∣ (padded file).length := by
  rw [padded]
  split_ifs with h
  · exact dvd_zero 8
  · rw [List.length_append, List.length_replicate]
    omega

lemma unpadded_padded (file : List Byte) : unpadded (padded file) = file := by
  by_cases h : file = []
  · subst h
    rfl
  · obtain ⟨n, hn⟩ : ∃ n, 8 - file.length%8 = n + 1 := ⟨7 - file.length%8, by omega⟩
    have hlast : (file ++ List.replicate (n+1) (BitVec.ofNat 8 (n+1))).getLastD 0 =
        BitVec.ofNat 8 (n+1) := by
      rw [List.replicate_succ', ← List.append_assoc]
      simp
    have hbyte : (BitVec.ofNat 8 (n+1)).toNat = n + 1 := by
      rw [BitVec.toNat_ofNat]
      omega
    have hmin : min 8 (n+1) = n + 1 := by omega
    rw [padded, if_neg h, hn, unpadded, hlast, hbyte, hmin, List.length_append,
      List.length_replicate, Nat.add_sub_cancel, List.take_left]

/-- Only the last block holds padding. -/
lemma unpadded_append (front bytes : List Byte) (h : 8 ≤ bytes.length) :
    unpadded (front ++ bytes) = front ++ unpadded bytes := by
  obtain ⟨init, b, rfl⟩ := List.eq_nil_or_concat' bytes |>.resolve_left
    (List.ne_nil_of_length_pos (by omega))
  have hmin : min 8 b.toNat ≤ (init ++ [b]).length := (Nat.min_le_left 8 _).trans h
  rw [unpadded, unpadded, ← List.append_assoc, List.getLastD_concat, List.getLastD_concat,
    List.append_assoc, List.length_append, Nat.add_sub_assoc hmin, List.take_length_add_append]

/-- A block that ends in `8` or more is all padding. -/
lemma unpadded_block (block : Vector Byte 8) : unpadded block.toList =
    if block[7].toNat < 8 then block.toList.take (8 - block[7].toNat) else [] := by
  have hlast : block.toList.getLastD 0 = block[7] := by
    simp [List.getLastD_eq_getLast?, List.getLast?_eq_getElem?]
  rw [unpadded, hlast, Vector.length_toList]
  split_ifs with h
  · rw [Nat.min_eq_right h.le]
  · rw [Nat.min_eq_left (not_lt.mp h), Nat.sub_self, List.take_zero]

/-- One more block is the last one when no more than a block is left. -/
lemma last_iff {fileSize blockCount left : ℕ} (hsize : fileSize = 8*blockCount + left)
    (hleft : 0 < left) : blockCount + 1 = numberOfBlocks fileSize ↔ left ≤ 8 := by
  rw [numberOfBlocks]
  split_ifs with h <;> omega

lemma freadBlock_full (dataBlock : Vector Byte 8) {inputFile : List Byte}
    (h : 8 ≤ inputFile.length) : freadBlock dataBlock inputFile = toBlock 8 inputFile := by
  apply Vector.ext
  intro i hi
  simp [freadBlock, toBlock, show i < inputFile.length by omega]

lemma freadBlock_nil (dataBlock : Vector Byte 8) : freadBlock dataBlock [] = dataBlock := by
  apply Vector.ext
  intro i hi
  simp [freadBlock]

/-- The bytes behind the end of the file are overwritten. -/
lemma memsetPadding_eq (dataBlock : Vector Byte 8) (inputFile : List Byte) {padding : ℕ}
    (h : inputFile.length + padding = 8) :
    memsetPadding (freadBlock dataBlock inputFile) padding =
      toBlock 8 (inputFile ++ List.replicate padding (.ofNat 8 padding)) := by
  apply Vector.ext
  intro i hi
  by_cases hlt : i < inputFile.length
  · simp [memsetPadding, freadBlock, toBlock, List.getElem?_append_left hlt, hlt,
      show i < 8 - padding by omega]
  · simp [memsetPadding, toBlock, List.getElem?_append_right (not_lt.mp hlt),
      show ¬ i < 8 - padding by omega, show i - inputFile.length < padding by omega]

lemma padded_block (block inputFile : List Byte) (hblock : block.length = 8)
    (hne : inputFile ≠ []) : padded (block ++ inputFile) = block ++ padded inputFile := by
  have happ : block ++ inputFile ≠ [] := List.append_ne_nil_of_right_ne_nil _ hne
  rw [padded, padded, if_neg hne, if_neg happ, List.length_append, hblock, Nat.add_mod_left,
    List.append_assoc]

section Loop
variable (keySetsK : KeyTable)

/-- A block before the last is processed as it is. -/
lemma fileTurn_block (processMode : BitVec 1) {fileSize : ℕ} {s : FileLoop}
    (hsize : fileSize = 8*s.blockCount + s.inputFile.length) (hleft : 8 < s.inputFile.length) :
    fileTurn keySetsK processMode fileSize s = ⟨s.inputFile.drop 8,s.blockCount + 1,.replicate 8 0,
      s.outputFile ++ (processMessage keySetsK processMode (toBlock 8 s.inputFile)).toList⟩ := by
  have hlast : ¬ s.blockCount + 1 = numberOfBlocks fileSize := by
    rw [last_iff hsize (by omega)]
    omega
  rw [fileTurn, writtenBlock, if_neg hlast, freadBlock_full _ hleft.le]

/-- The last turn of an encryption writes the padded rest of the file. -/
lemma writtenBlock_encryption {fileSize : ℕ} {s : FileLoop}
    (hsize : fileSize = 8*s.blockCount + s.inputFile.length) (hne : s.inputFile ≠ [])
    (hleft : s.inputFile.length ≤ 8) :
    writtenBlock keySetsK ENCRYPTION_MODE fileSize (s.blockCount + 1)
        (freadBlock s.dataBlock s.inputFile) =
      cipherBlocks 8 (processMessage keySetsK ENCRYPTION_MODE) (padded s.inputFile) := by
  have hpos := List.length_pos_iff.mpr hne
  have hmod : fileSize%8 = s.inputFile.length%8 := by omega
  rw [writtenBlock, if_pos ((last_iff hsize hpos).mpr hleft), if_pos rfl, padded, if_neg hne, hmod]
  obtain hfull | hpart := Nat.eq_or_lt_of_le hleft
  · -- a whole block of padding follows
    have hpad : 8 - s.inputFile.length%8 = 8 := by omega
    have hextra : memsetPadding (freadBlock s.dataBlock s.inputFile) 8 =
        toBlock 8 (List.replicate 8 (.ofNat 8 8)) := by
      have hset := memsetPadding_eq (freadBlock s.dataBlock s.inputFile) [] (Nat.zero_add 8)
      rwa [freadBlock_nil, List.nil_append] at hset
    simp only [hpad, lt_irrefl, if_false, if_true]
    rw [hextra, freadBlock_full _ hfull.ge, cipherBlocks_block _ _ _ (by omega) hfull,
      cipherBlocks_single _ (by omega) List.length_replicate]
  · have hpad : 8 - s.inputFile.length%8 = 8 - s.inputFile.length := by
      rw [Nat.mod_eq_of_lt hpart]
    have hlt : 8 - s.inputFile.length < 8 := by omega
    have hlen : s.inputFile.length + (8 - s.inputFile.length) = 8 := by omega
    have hfilled : (s.inputFile ++ List.replicate (8 - s.inputFile.length)
        (BitVec.ofNat 8 (8 - s.inputFile.length))).length = 8 := by
      rw [List.length_append, List.length_replicate, hlen]
    simp only [hpad, hlt, hlt.ne, if_true, if_false]
    rw [memsetPadding_eq _ _ hlen, cipherBlocks_single _ (by omega) hfilled]

/-- From any turn on an encryption writes the blocks of the padded rest of the file. -/
lemma fileLoop_encryption {fileSize : ℕ} (s : FileLoop)
    (hsize : fileSize = 8*s.blockCount + s.inputFile.length) (hne : s.inputFile ≠ []) :
    fileLoop keySetsK ENCRYPTION_MODE fileSize s = s.outputFile ++
      cipherBlocks 8 (processMessage keySetsK ENCRYPTION_MODE) (padded s.inputFile) := by
  induction hk : s.inputFile.length using Nat.strong_induction_on generalizing s with
  | _ k ih =>
    rw [fileLoop, if_neg hne]
    obtain hleft | hleft := Nat.lt_or_ge 8 s.inputFile.length
    · have hdrop : (s.inputFile.drop 8).length = s.inputFile.length - 8 := List.length_drop
      have hrest : s.inputFile.drop 8 ≠ [] := List.ne_nil_of_length_pos (by omega)
      have htake : (s.inputFile.take 8).length = 8 := List.length_take_of_le hleft.le
      have hpadded : padded s.inputFile = s.inputFile.take 8 ++ padded (s.inputFile.drop 8) := by
        rw [← padded_block _ _ htake hrest, List.take_append_drop]
      have hsize' : fileSize = 8*(s.blockCount + 1) + (s.inputFile.drop 8).length := by omega
      rw [fileTurn_block keySetsK _ hsize hleft,
        ih (s.inputFile.drop 8).length (by omega) ⟨_,_,_,_⟩ hsize' hrest rfl, hpadded,
        cipherBlocks_block _ _ _ (by omega) htake, toBlock_take _ hleft.le, List.append_assoc]
    · have hdrop : s.inputFile.drop 8 = [] := List.drop_eq_nil_of_le hleft
      rw [fileTurn, hdrop, fileLoop, if_pos rfl, writtenBlock_encryption keySetsK hsize hne hleft]

/-- The last turn of a decryption leaves the padding out. -/
lemma writtenBlock_decryption {fileSize : ℕ} {s : FileLoop}
    (hsize : fileSize = 8*s.blockCount + s.inputFile.length) (hfull : s.inputFile.length = 8) :
    writtenBlock keySetsK DECRYPTION_MODE fileSize (s.blockCount + 1)
        (freadBlock s.dataBlock s.inputFile) =
      unpadded (cipherBlocks 8 (processMessage keySetsK DECRYPTION_MODE) s.inputFile) := by
  have hlast : s.blockCount + 1 = numberOfBlocks fileSize :=
    (last_iff hsize (by omega)).mpr hfull.le
  have hmode : ¬ DECRYPTION_MODE = ENCRYPTION_MODE := by decide
  rw [writtenBlock, if_pos hlast, if_neg hmode, freadBlock_full _ hfull.ge,
    cipherBlocks_single _ (by omega) hfull]
  exact (unpadded_block _).symm

/-- From any turn on a decryption writes the processed blocks without the padding. -/
lemma fileLoop_decryption {fileSize : ℕ} (s : FileLoop)
    (hsize : fileSize = 8*s.blockCount + s.inputFile.length) (hne : s.inputFile ≠ [])
    (hdvd : 8 ∣ s.inputFile.length) :
    fileLoop keySetsK DECRYPTION_MODE fileSize s = s.outputFile ++
      unpadded (cipherBlocks 8 (processMessage keySetsK DECRYPTION_MODE) s.inputFile) := by
  induction hk : s.inputFile.length using Nat.strong_induction_on generalizing s with
  | _ k ih =>
    have hpos := List.length_pos_iff.mpr hne
    rw [fileLoop, if_neg hne]
    obtain hleft | hleft := Nat.lt_or_ge 8 s.inputFile.length
    · have hdrop : (s.inputFile.drop 8).length = s.inputFile.length - 8 := List.length_drop
      have hrest : s.inputFile.drop 8 ≠ [] := List.ne_nil_of_length_pos (by omega)
      have hdvd' : 8 ∣ (s.inputFile.drop 8).length := by omega
      have htake : (s.inputFile.take 8).length = 8 := List.length_take_of_le hleft.le
      have hsize' : fileSize = 8*(s.blockCount + 1) + (s.inputFile.drop 8).length := by omega
      have hblocks := cipherBlocks_block (processMessage keySetsK DECRYPTION_MODE)
        (s.inputFile.take 8) (s.inputFile.drop 8) (by omega) htake
      have hlong : 8 ≤ (cipherBlocks 8 (processMessage keySetsK DECRYPTION_MODE)
          (s.inputFile.drop 8)).length := by
        rw [cipherBlocks_length]
        omega
      rw [List.take_append_drop] at hblocks
      rw [fileTurn_block keySetsK _ hsize hleft,
        ih (s.inputFile.drop 8).length (by omega) ⟨_,_,_,_⟩ hsize' hrest hdvd' rfl,
        hblocks, unpadded_append _ _ hlong, toBlock_take _ hleft.le, List.append_assoc]
    · have hfull : s.inputFile.length = 8 := by omega
      have hdrop : s.inputFile.drop 8 = [] := List.drop_eq_nil_of_le hleft
      rw [fileTurn, hdrop, fileLoop, if_pos rfl, writtenBlock_decryption keySetsK hsize hfull]

lemma runDes_encryption (dataBlock : Vector Byte 8) (inputFile : List Byte) :
    runDes keySetsK ENCRYPTION_MODE dataBlock inputFile =
      cipherBlocks 8 (processMessage keySetsK ENCRYPTION_MODE) (padded inputFile) := by
  by_cases hne : inputFile = []
  · subst hne
    rw [runDes, fileLoop, if_pos rfl, padded, if_pos rfl, cipherBlocks_short _ _ (by decide)]
  · have hsize : inputFile.length = 8*0 + inputFile.length := by omega
    rw [runDes, fileLoop_encryption keySetsK ⟨_,_,_,_⟩ hsize hne, List.nil_append]

lemma runDes_decryption (dataBlock : Vector Byte 8) (inputFile : List Byte)
    (hdvd : 8 ∣ inputFile.length) : runDes keySetsK DECRYPTION_MODE dataBlock inputFile =
      unpadded (cipherBlocks 8 (processMessage keySetsK DECRYPTION_MODE) inputFile) := by
  by_cases hne : inputFile = []
  · subst hne
    rw [runDes, fileLoop, if_pos rfl, cipherBlocks_short _ _ (by decide)]
    rfl
  · have hsize : inputFile.length = 8*0 + inputFile.length := by omega
    rw [runDes, fileLoop_decryption keySetsK ⟨_,_,_,_⟩ hsize hne hdvd, List.nil_append]

end Loop

/-- A file encrypted and then decrypted under one table is the file again, whatever the blocks of
the two runs hold when they are allocated. -/
theorem run_des_roundTrip (keySetsK : KeyTable) (dataBlock dataBlock' : Vector Byte 8)
    (file : List Byte) : runDes keySetsK DECRYPTION_MODE dataBlock'
      (runDes keySetsK ENCRYPTION_MODE dataBlock file) = file := by
  have hpadded := length_padded file
  have hdvd : 8 ∣ (cipherBlocks 8 (processMessage keySetsK ENCRYPTION_MODE) (padded file)).length := by
    rw [cipherBlocks_length]
    exact dvd_mul_right 8 _
  rw [runDes_encryption, runDes_decryption keySetsK _ _ hdvd,
    cipherBlocks_inverse _ (decrypt_encrypt keySetsK) (by omega) _ hpadded, unpadded_padded]

end EncryptionAccelerators.Net
