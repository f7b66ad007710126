import Mathlib.Algebra.Ring.Int.Defs
import Mathlib.Data.Rat.Defs
import Extempore.CheckedResults
import Extempore.LittleEndian
import Extempore.ListWindows

/-!
# WAVE files

A chunk is looked for by its identifier, from the first byte of the file on, wherever that occurs.
The file is read into a buffer of which the last byte is overwritten with a zero.
-/

namespace Extempore.WaveFiles
open CheckedResults ListWindows

/-! ## The reader -/

/-- How a reader stops: with a message, at a read outside the file, at a division by zero. -/
inductive Stop where
  | rejected (text : String)
  | outside
  | trap
  deriving DecidableEq, Repr

/-- A `SAMPLE`: the bits of a number, or the number that an integer stands for. -/
inductive Sample where
  | float (bits : List UInt8)
  | double (bits : List UInt8)
  | pcm (value : ℚ)
  deriving DecidableEq, Repr

/-- `sys_slurp_file`, which ends the buffer like a string. -/
def sysSlurpFile (file : List UInt8) : List UInt8 := file.set (file.length - 1) 0

/-- `pref` of a signed little-endian integer. -/
def pref (width : ℕ) (buf : List UInt8) (q : ℕ) : Except Stop ℤ :=
  if q + width ≤ buf.length then
    .ok (Int.bmod (LittleEndian.decode (window buf q width)) (256 ^ width))
  else .error .outside

/-- `doloop` over the samples. The comparison is unsigned, so a negative count has no end. -/
def doloop (nsamp : ℤ) (width : ℕ) (toSample : List UInt8 → Sample) (buf : List UInt8) (src : ℕ) :
    Except Stop (List Sample) :=
  if nsamp < 0 ∨ buf.length < src + width * nsamp.toNat then .error .outside
  else .ok ((List.range nsamp.toNat).map fun i => toSample (window buf (src + width * i) width))

def floatToSample (bs : List UInt8) : Sample := .float bs

def pcm16ToSample (bs : List UInt8) : Sample :=
  .pcm (mkRat (Int.bmod (LittleEndian.decode bs) (2 ^ 16)) (2 ^ 16))

/-- The three bytes are the upper ones of `tmp`. -/
def pcm24ToSample (bs : List UInt8) : Sample :=
  .pcm (mkRat (Int.bmod (LittleEndian.decode (0 :: bs)) (2 ^ 32)) (2 ^ 32))

def waveFormatPcm : ℤ := 1

def waveFormatIeeeFloat : ℤ := 3

def waveFormatExtensible : ℤ := -2

/-- `audiofile_copy_samples` for little-endian files. -/
def audiofileCopySamples (buf : List UInt8) (src : ℕ) (nsamp bitdepth type : ℤ) :
    Except Stop (List Sample) :=
  if type = waveFormatIeeeFloat then doloop nsamp 4 floatToSample buf src
  else if (type = waveFormatPcm ∨ type = waveFormatExtensible) ∧ bitdepth = 16 then
    doloop nsamp 2 pcm16ToSample buf src
  else if (type = waveFormatPcm ∨ type = waveFormatExtensible) ∧ bitdepth = 24 then
    doloop nsamp 3 pcm24ToSample buf src
  else .error (.rejected ("audiofile error: the native xtlang wave/aiff file reader currently\n" ++
    "only supports 16/24-bit PCM or 32-bit IEEE float audio\n\n" ++
    "For more audio format options, use libs/external/sndfile.xtm"))

def riffId : List UInt8 := [82, 73, 70, 70]

def waveId : List UInt8 := [87, 65, 86, 69]

def fmtId : List UInt8 := [102, 109, 116, 32]

def dataId : List UInt8 := [100, 97, 116, 97]

def iffChunkHeaderSize : ℕ := 8

/-- `iffchunk_size` of a little-endian header. -/
def iffchunkSize (buf : List UInt8) (hdr : ℕ) : Except Stop ℤ := pref 4 buf (hdr + 4)

def iffchunkFindDumb (buf id : List UInt8) : Except Stop ℕ :=
  match firstMatch id buf with
  | some q => .ok q
  | none => .error .outside

/-- `strncmp` stops at the zero at the end of the buffer. -/
def waveValidate (buf : List UInt8) : Except Stop Bool :=
  if window buf 0 4 ≠ riffId then .ok false
  else if buf.length ≤ 8 then .error .outside
  else .ok (window buf 8 4 == waveId)

/-- What `let` binds before the samples are read. -/
structure Header where
  fmt : ℕ
  type : ℤ
  nchan : ℤ
  samplerate : ℤ
  bitdepth : ℤ
  data : ℕ
  nframes : ℤ
  deriving DecidableEq, Repr

def readHeader (buf : List UInt8) : Except Stop Header := do
  let fmt ← iffchunkFindDumb buf fmtId
  let _chunksize ← iffchunkSize buf fmt
  let type ← pref 2 buf (fmt + iffChunkHeaderSize)
  let nchan ← pref 2 buf (fmt + (iffChunkHeaderSize + 2))
  let samplerate ← pref 4 buf (fmt + (iffChunkHeaderSize + 4))
  let bitdepth ← pref 2 buf (fmt + (iffChunkHeaderSize + 14))
  let data ← iffchunkFindDumb buf dataId
  let size ← iffchunkSize buf data
  if nchan * bitdepth.tdiv 8 = 0 then .error .trap
  else .ok { fmt, type, nchan, samplerate, bitdepth, data
             nframes := size.tdiv (nchan * bitdepth.tdiv 8) }

/-- What both readers do with a file, `none` when there is none. -/
def readWave (file : Option (List UInt8)) : Except Stop (Header × List Sample) :=
  match file with
  | none => .error (.rejected "wavefile error: could not open file")
  | some file => do
    let filedata := sysSlurpFile file
    let valid ← waveValidate filedata
    if valid = false then
      .error (.rejected ("wavefile error: there was a problem with the chunk IDs...\n" ++
        "is the file corrupt?"))
    else
      let h ← readHeader filedata
      let samples ← audiofileCopySamples filedata (h.data + iffChunkHeaderSize)
        (h.nchan * h.nframes) h.bitdepth h.type
      .ok (h, samples)

def audiofileWaveReadSamples (file : Option (List UInt8)) : Except Stop (List Sample) :=
  (readWave file).map Prod.snd

/-- An `AudioBuffer` without its name. -/
structure AudioBuffer where
  frames : ℤ
  channels : ℤ
  samplerate : ℤ
  data : List Sample
  deriving DecidableEq, Repr

def audioBufferFromWave (file : Option (List UInt8)) : Except Stop AudioBuffer :=
  (readWave file).map fun r => ⟨r.1.nframes, r.1.nchan, r.1.samplerate, r.2⟩

/-! ## Well-formed files -/

/-- A chunk, with the byte that is put behind a payload of odd length. -/
structure Chunk where
  id : List UInt8
  payload : List UInt8
  pad : UInt8
  id_length : id.length = 4
  payload_lt : payload.length < 2 ^ 32

def Chunk.padding (c : Chunk) : List UInt8 := if c.payload.length % 2 = 0 then [] else [c.pad]

def Chunk.bytes (c : Chunk) : List UInt8 :=
  c.id ++ (LittleEndian.encode 4 c.payload.length ++ (c.payload ++ c.padding))

/-- The unsigned number of `n` bytes at `off` in the payload. -/
def Chunk.field (c : Chunk) (off n : ℕ) : ℕ := LittleEndian.decode (window c.payload off n)

/-- PCM with 16 or 24 bits, also as an extensible format, or floating point numbers. -/
def Supported (tag bits : ℕ) : Prop :=
  ((tag = 1 ∨ tag = 65534) ∧ (bits = 16 ∨ bits = 24)) ∨ (tag = 3 ∧ (bits = 32 ∨ bits = 64))

/-- A file with a format chunk and a later data chunk among others. -/
structure WaveFile where
  before : List Chunk
  fmt : Chunk
  between : List Chunk
  data : Chunk
  after : List Chunk
  fmt_id : fmt.id = fmtId
  data_id : data.id = dataId
  others : ∀ c ∈ before ++ between ++ after, c.id ≠ fmtId ∧ c.id ≠ dataId
  fmt_length : 16 ≤ fmt.payload.length
  supported : Supported (fmt.field 0 2) (fmt.field 14 2)
  channels_pos : 0 < fmt.field 2 2

namespace WaveFile

variable (w : WaveFile)

def tag : ℕ := w.fmt.field 0 2

def channels : ℕ := w.fmt.field 2 2

def bits : ℕ := w.fmt.field 14 2

/-- The bytes of a sample. -/
def width : ℕ := w.bits / 8

def chunks (cs : List Chunk) : List UInt8 := cs.flatMap Chunk.bytes

def body : List UInt8 :=
  chunks w.before ++ (w.fmt.bytes ++ (chunks w.between ++ (w.data.bytes ++ chunks w.after)))

def bytes : List UInt8 :=
  riffId ++ (LittleEndian.encode 4 (4 + w.body.length) ++ (waveId ++ w.body))

/-- Where the format chunk begins. -/
def fmtPos : ℕ := 12 + (chunks w.before).length

/-- Where the data chunk begins. -/
def dataPos : ℕ := w.fmtPos + w.fmt.bytes.length + (chunks w.between).length

def frames : ℕ := w.data.payload.length / (w.channels * w.width)

/-- A sample of `bits` bits. -/
def toSample (bits : ℕ) (bs : List UInt8) : Sample :=
  if bits = 32 then .float bs
  else if bits = 64 then .double bs
  else .pcm (mkRat (Int.bmod (LittleEndian.decode bs) (2 ^ bits)) (2 ^ bits))

def samples : List Sample :=
  (List.range (w.channels * w.frames)).map fun i =>
    toSample w.bits (window w.data.payload (w.width * i) w.width)

end WaveFile

/-- The header comes from the format chunk, the samples from the data chunk, and nothing is read
outside the file. -/
structure Reads (w : WaveFile) : Prop where
  header : ∃ h, readHeader (sysSlurpFile w.bytes) = .ok h ∧ h.fmt = w.fmtPos ∧ h.data = w.dataPos ∧
    h.type = Int.bmod w.tag (2 ^ 16) ∧ h.nchan = w.channels ∧ h.bitdepth = w.bits ∧
    h.nframes = w.frames
  samples : audiofileWaveReadSamples (some w.bytes) = .ok w.samples
  buffer : ∃ b, audioBufferFromWave (some w.bytes) = .ok b ∧ b.frames = w.frames ∧
    b.channels = w.channels ∧ b.data = w.samples

/-- Neither identifier occurs before its chunk, the numbers of channels and of bytes are not
negative as signed numbers, floating point numbers have 32 bits, and the last byte of the file is
zero or not part of a sample. -/
structure Readable (w : WaveFile) : Prop where
  fmt_first : ∀ q < w.fmtPos, window w.bytes q 4 ≠ fmtId
  data_first : ∀ q < w.dataPos, window w.bytes q 4 ≠ dataId
  channels : w.channels < 2 ^ 15
  size : w.data.payload.length < 2 ^ 31
  float : w.bits = 64 → w.frames = 0
  last : w.frames = 0 ∨
    w.dataPos + 8 + w.width * (w.channels * w.frames) < w.bytes.length ∨ w.bytes.getLast? = some 0

/-! ## What is where in a file -/

section Layout

variable {pre post : List UInt8} {c : Chunk} {off n : ℕ}

theorem Chunk.length_bytes (c : Chunk) :
    c.bytes.length = 8 + (c.payload.length + c.padding.length) := by
  rw [Chunk.bytes, List.length_append, List.length_append, List.length_append, c.id_length,
    LittleEndian.length_encode]
  omega

theorem Chunk.window_id : window (pre ++ (c.bytes ++ post)) pre.length 4 = c.id := by
  rw [Chunk.bytes, List.append_assoc, ← c.id_length]
  exact window_append_exact

theorem Chunk.window_size :
    window (pre ++ (c.bytes ++ post)) (pre.length + 4) 4 =
      LittleEndian.encode 4 c.payload.length := by
  have hlength : (pre ++ c.id).length = pre.length + 4 := by rw [List.length_append, c.id_length]
  have h := @window_append_exact _ (pre ++ c.id) (LittleEndian.encode 4 c.payload.length)
    ((c.payload ++ c.padding) ++ post)
  rw [hlength, LittleEndian.length_encode] at h
  simpa only [Chunk.bytes, List.append_assoc] using h

theorem Chunk.window_payload (h : off + n ≤ c.payload.length) :
    window (pre ++ (c.bytes ++ post)) (pre.length + (8 + off)) n = window c.payload off n := by
  have hlength : (pre ++ (c.id ++ LittleEndian.encode 4 c.payload.length)).length =
      pre.length + 8 := by
    rw [List.length_append, List.length_append, c.id_length, LittleEndian.length_encode]
  have hright := @window_append_right _ (pre ++ (c.id ++ LittleEndian.encode 4 c.payload.length))
    (c.payload ++ (c.padding ++ post)) off n
  rw [hlength, window_append_left h, Nat.add_assoc] at hright
  simpa only [Chunk.bytes, List.append_assoc] using hright

end Layout

/-- The buffer differs from the file in the last byte only. -/
theorem sysSlurpFile_concat (init : List UInt8) (a : UInt8) :
    sysSlurpFile (init ++ [a]) = init ++ [0] := by
  rw [sysSlurpFile, List.length_append, List.length_singleton, Nat.add_sub_cancel,
    List.set_append_right _ _ le_rfl, Nat.sub_self]
  rfl

theorem length_sysSlurpFile (file : List UInt8) : (sysSlurpFile file).length = file.length :=
  List.length_set

theorem window_sysSlurpFile {file : List UInt8} {q n : ℕ} (h : q + n < file.length) :
    window (sysSlurpFile file) q n = window file q n := by
  cases file using List.reverseRecOn with
  | nil => cases h
  | append_singleton init a =>
    rw [List.length_append, List.length_singleton] at h
    rw [sysSlurpFile_concat, window_append_left (by omega), window_append_left (by omega)]

theorem sysSlurpFile_of_last {file : List UInt8} (h : file.getLast? = some 0) :
    sysSlurpFile file = file := by
  cases file using List.reverseRecOn with
  | nil => cases h
  | append_singleton init a =>
    rw [List.getLast?_concat] at h
    rw [sysSlurpFile_concat, Option.some.inj h]

namespace WaveFile

variable (w : WaveFile)

/-- The file around the format chunk. -/
theorem bytes_around_fmt :
    ∃ pre post, w.bytes = pre ++ (w.fmt.bytes ++ post) ∧ pre.length = w.fmtPos ∧
      8 + w.data.payload.length ≤ post.length := by
  refine ⟨riffId ++ (LittleEndian.encode 4 (4 + w.body.length) ++ (waveId ++ chunks w.before)),
    chunks w.between ++ (w.data.bytes ++ chunks w.after), ?_, ?_, ?_⟩
  · simp only [bytes, body, List.append_assoc]
  · simp only [List.length_append, LittleEndian.length_encode, fmtPos]
    show 4 + (4 + (4 + _)) = _
    omega
  · simp only [List.length_append, Chunk.length_bytes]
    omega

/-- The file around the data chunk. -/
theorem bytes_around_data :
    ∃ pre post, w.bytes = pre ++ (w.data.bytes ++ post) ∧ pre.length = w.dataPos := by
  refine ⟨riffId ++ (LittleEndian.encode 4 (4 + w.body.length) ++ (waveId ++ (chunks w.before ++
    (w.fmt.bytes ++ chunks w.between)))), chunks w.after, ?_, ?_⟩
  · simp only [bytes, body, List.append_assoc]
  · simp only [List.length_append, LittleEndian.length_encode, dataPos, fmtPos]
    show 4 + (4 + (4 + _)) = _
    omega

theorem fmtPos_lt : w.fmtPos + 24 < w.bytes.length := by
  rcases w.bytes_around_fmt with ⟨pre, post, hbytes, hpre, hpost⟩
  have hfmt := w.fmt_length
  rw [hbytes, List.length_append, List.length_append, Chunk.length_bytes, hpre]
  omega

theorem dataPos_le : w.dataPos + 8 + w.data.payload.length ≤ w.bytes.length := by
  rcases w.bytes_around_data with ⟨pre, post, hbytes, hpre⟩
  rw [hbytes, List.length_append, List.length_append, Chunk.length_bytes, hpre]
  omega

theorem window_fmt_id : window w.bytes w.fmtPos 4 = fmtId := by
  rcases w.bytes_around_fmt with ⟨pre, post, hbytes, hpre, -⟩
  rw [hbytes, ← hpre, Chunk.window_id, w.fmt_id]

theorem window_data_id : window w.bytes w.dataPos 4 = dataId := by
  rcases w.bytes_around_data with ⟨pre, post, hbytes, hpre⟩
  rw [hbytes, ← hpre, Chunk.window_id, w.data_id]

theorem window_fmt {off n : ℕ} (h : off + n ≤ 16) :
    window (sysSlurpFile w.bytes) (w.fmtPos + (8 + off)) n = window w.fmt.payload off n := by
  have hlt := w.fmtPos_lt
  rw [window_sysSlurpFile (by omega)]
  rcases w.bytes_around_fmt with ⟨pre, post, hbytes, hpre, -⟩
  rw [hbytes, ← hpre, Chunk.window_payload (h.trans w.fmt_length)]

theorem window_data {off n : ℕ} (h : off + n ≤ w.data.payload.length) :
    window w.bytes (w.dataPos + (8 + off)) n = window w.data.payload off n := by
  rcases w.bytes_around_data with ⟨pre, post, hbytes, hpre⟩
  rw [hbytes, ← hpre, Chunk.window_payload h]

/-- The size of the data chunk survives: it is zero when it ends the file. -/
theorem window_data_size :
    window (sysSlurpFile w.bytes) (w.dataPos + 4) 4 =
      LittleEndian.encode 4 w.data.payload.length := by
  rcases w.bytes_around_data with ⟨pre, post, hbytes, hpre⟩
  have hsize : window w.bytes (w.dataPos + 4) 4 = LittleEndian.encode 4 w.data.payload.length := by
    rw [hbytes, ← hpre, Chunk.window_size]
  have hle := w.dataPos_le
  by_cases hlt : w.dataPos + 4 + 4 < w.bytes.length
  · rw [window_sysSlurpFile hlt, hsize]
  · have hempty : w.data.payload = [] := List.eq_nil_of_length_eq_zero (by omega)
    have hlast : w.bytes.getLast? = some 0 := by
      have hpost : post = [] := by
        have hlength : w.bytes.length = w.dataPos + (w.data.bytes.length + post.length) := by
          rw [hbytes, List.length_append, List.length_append, hpre]
        rw [Chunk.length_bytes] at hlength
        exact List.eq_nil_of_length_eq_zero (by omega)
      rw [hbytes, hpost, List.append_nil, Chunk.bytes, Chunk.padding, hempty]
      simp [LittleEndian.encode]
    rw [sysSlurpFile_of_last hlast, hsize]

/-! ## The header -/

/-- The first match of an identifier is not affected by the last byte. -/
theorem firstMatch_iff {id : List UInt8} {pos : ℕ} (hid : id.length = 4)
    (hlt : pos + 4 < w.bytes.length) (hpos : window w.bytes pos 4 = id) :
    firstMatch id (sysSlurpFile w.bytes) = some pos ↔ ∀ q < pos, window w.bytes q 4 ≠ id := by
  have hne : id ≠ [] := by
    rintro rfl
    cases hid
  rw [firstMatch_eq_some_iff hne, hid, window_sysSlurpFile hlt]
  have hiff : ∀ q < pos, window (sysSlurpFile w.bytes) q 4 = window w.bytes q 4 := by
    intro q hq
    exact window_sysSlurpFile (by omega)
  constructor
  · rintro ⟨-, hfirst⟩ q hq
    rw [← hiff q hq]
    exact hfirst q hq
  · intro hfirst
    refine ⟨hpos, ?_⟩
    intro q hq
    rw [hiff q hq]
    exact hfirst q hq

theorem firstMatch_fmt_iff :
    firstMatch fmtId (sysSlurpFile w.bytes) = some w.fmtPos ↔
      ∀ q < w.fmtPos, window w.bytes q 4 ≠ fmtId := by
  have hlt := w.fmtPos_lt
  exact w.firstMatch_iff rfl (by omega) w.window_fmt_id

theorem firstMatch_data_iff :
    firstMatch dataId (sysSlurpFile w.bytes) = some w.dataPos ↔
      ∀ q < w.dataPos, window w.bytes q 4 ≠ dataId := by
  have hle := w.dataPos_le
  exact w.firstMatch_iff rfl (by omega) w.window_data_id

theorem bits_eq : w.bits = 16 ∨ w.bits = 24 ∨ w.bits = 32 ∨ w.bits = 64 := by
  rcases w.supported with ⟨-, h16 | h24⟩ | ⟨-, h32 | h64⟩
  · exact .inl h16
  · exact .inr (.inl h24)
  · exact .inr (.inr (.inl h32))
  · exact .inr (.inr (.inr h64))

theorem width_pos : 0 < w.width := by
  rw [width]
  have h := w.bits_eq
  omega

theorem bits_lt : w.bits < 2 ^ 15 := by
  have h := w.bits_eq
  omega

end WaveFile

/-- A number is itself as a signed number when its sign bit is clear. -/
theorem bmod_eq_self_iff {n m : ℕ} (heven : m % 2 = 0) (h : n < m) :
    Int.bmod n m = n ↔ 2 * n < m := by
  rw [Int.bmod, Int.emod_eq_of_lt (Int.natCast_nonneg n) (Int.ofNat_lt.mpr h)]
  split_ifs <;> omega

theorem bmod_of_le {n m : ℕ} (heven : m % 2 = 0) (h : n < m) (hle : m ≤ 2 * n) :
    Int.bmod n m = (n : ℤ) - m := by
  rw [Int.bmod, Int.emod_eq_of_lt (Int.natCast_nonneg n) (Int.ofNat_lt.mpr h)]
  split_ifs <;> omega

theorem pref_eq {buf : List UInt8} {width q : ℕ} (h : q + width ≤ buf.length) :
    pref width buf q = .ok (Int.bmod (LittleEndian.decode (window buf q width)) (256 ^ width)) :=
  if_pos h

namespace WaveFile

variable (w : WaveFile)

theorem pref_fmt {off n : ℕ} (h : off + n ≤ 16) :
    pref n (sysSlurpFile w.bytes) (w.fmtPos + (8 + off)) =
      .ok (Int.bmod (w.fmt.field off n) (256 ^ n)) := by
  have hlt := w.fmtPos_lt
  rw [pref_eq (by rw [length_sysSlurpFile]; omega), w.window_fmt h]
  rfl

theorem field_lt {off n : ℕ} (h : off + n ≤ 16) : w.fmt.field off n < 256 ^ n := by
  have hfmt := w.fmt_length
  have hlt := LittleEndian.decode_lt (window w.fmt.payload off n)
  rwa [length_window (by omega)] at hlt

theorem size_data :
    iffchunkSize (sysSlurpFile w.bytes) w.dataPos =
      .ok (Int.bmod w.data.payload.length (2 ^ 32)) := by
  have hle := w.dataPos_le
  have hlt : w.data.payload.length < 256 ^ 4 := w.data.payload_lt
  rw [iffchunkSize, pref_eq (by rw [length_sysSlurpFile]; omega), w.window_data_size,
    LittleEndian.decode_encode, Nat.mod_eq_of_lt hlt]
  rfl

/-- The two chunks that the reader finds decide all of the header. -/
theorem readHeader_eq (hfmt : firstMatch fmtId (sysSlurpFile w.bytes) = some w.fmtPos)
    (hdata : firstMatch dataId (sysSlurpFile w.bytes) = some w.dataPos) :
    readHeader (sysSlurpFile w.bytes) = .ok
      { fmt := w.fmtPos
        type := Int.bmod w.tag (2 ^ 16)
        nchan := Int.bmod w.channels (2 ^ 16)
        samplerate := Int.bmod (w.fmt.field 4 4) (2 ^ 32)
        bitdepth := w.bits
        data := w.dataPos
        nframes := (Int.bmod w.data.payload.length (2 ^ 32)).tdiv
          (Int.bmod w.channels (2 ^ 16) * w.width) } := by
  have hlt := w.fmtPos_lt
  have hchunk : iffchunkSize (sysSlurpFile w.bytes) w.fmtPos =
      .ok (Int.bmod (LittleEndian.decode (window (sysSlurpFile w.bytes) (w.fmtPos + 4) 4))
        (256 ^ 4)) :=
    pref_eq (by rw [length_sysSlurpFile]; omega)
  have htype : pref 2 (sysSlurpFile w.bytes) (w.fmtPos + 8) = .ok (Int.bmod w.tag (2 ^ 16)) :=
    @pref_fmt w 0 2 (by omega)
  have hnchan : pref 2 (sysSlurpFile w.bytes) (w.fmtPos + (8 + 2)) =
      .ok (Int.bmod w.channels (2 ^ 16)) := w.pref_fmt (by omega)
  have hrate : pref 4 (sysSlurpFile w.bytes) (w.fmtPos + (8 + 4)) =
      .ok (Int.bmod (w.fmt.field 4 4) (2 ^ 32)) := w.pref_fmt (by omega)
  have hbits : pref 2 (sysSlurpFile w.bytes) (w.fmtPos + (8 + 14)) = .ok (w.bits : ℤ) := by
    have hlt := w.bits_lt
    have hself : Int.bmod w.bits (2 ^ 16) = w.bits :=
      (bmod_eq_self_iff (by omega) (by omega)).mpr (by omega)
    rw [← hself]
    exact w.pref_fmt (by omega)
  have hwidth : (w.bits : ℤ).tdiv 8 = w.width := rfl
  have hne : Int.bmod w.channels (2 ^ 16) * (w.width : ℤ) ≠ 0 := by
    have hpos : 0 < w.channels := w.channels_pos
    have hchannels : w.channels < 2 ^ 16 := w.field_lt (by omega)
    apply mul_ne_zero
    · by_cases hsign : 2 * w.channels < 2 ^ 16
      · rw [(bmod_eq_self_iff (by omega) hchannels).mpr hsign]
        omega
      · rw [bmod_of_le (by omega) hchannels (by omega)]
        omega
    · have hwidth := w.width_pos
      omega
  simp only [readHeader, iffchunkFindDumb, hfmt, hdata, hchunk, iffChunkHeaderSize, htype, hnchan,
    hrate, hbits, w.size_data, bind, Except.bind, hwidth, if_neg hne]

end WaveFile

/-- The places in a header are first matches. -/
theorem firstMatch_of_readHeader {buf : List UInt8} {h : Header} (hread : readHeader buf = .ok h) :
    firstMatch fmtId buf = some h.fmt ∧ firstMatch dataId buf = some h.data := by
  have hfind {id : List UInt8} {q : ℕ} (hq : iffchunkFindDumb buf id = .ok q) :
      firstMatch id buf = some q := by
    rw [iffchunkFindDumb] at hq
    split at hq
    · cases hq
      assumption
    · cases hq
  rcases exists_of_bind_eq_ok hread with ⟨fmt, hfmt, hread⟩
  rcases exists_of_bind_eq_ok hread with ⟨chunksize, -, hread⟩
  rcases exists_of_bind_eq_ok hread with ⟨type, -, hread⟩
  rcases exists_of_bind_eq_ok hread with ⟨nchan, -, hread⟩
  rcases exists_of_bind_eq_ok hread with ⟨samplerate, -, hread⟩
  rcases exists_of_bind_eq_ok hread with ⟨bitdepth, -, hread⟩
  rcases exists_of_bind_eq_ok hread with ⟨data, hdata, hread⟩
  rcases exists_of_bind_eq_ok hread with ⟨size, -, hread⟩
  split_ifs at hread with hzero
  cases hread
  exact ⟨hfind hfmt, hfind hdata⟩

/-! ## The samples -/

theorem doloop_eq {n width src : ℕ} {buf : List UInt8} {toSample : List UInt8 → Sample}
    (h : src + width * n ≤ buf.length) :
    doloop n width toSample buf src =
      .ok ((List.range n).map fun i => toSample (window buf (src + width * i) width)) := by
  rw [doloop, if_neg]
  · rfl
  · rw [Int.toNat_natCast]
    omega

/-- Putting a zero below three bytes and dividing by `2 ^ 32` is dividing them by `2 ^ 24`. -/
theorem pcm24ToSample_eq {bs : List UInt8} (h : bs.length = 3) :
    pcm24ToSample bs = WaveFile.toSample 24 bs := by
  have hlt : LittleEndian.decode bs < 2 ^ 24 := by
    have hlt := LittleEndian.decode_lt bs
    rwa [h] at hlt
  have hbmod : Int.bmod (LittleEndian.decode (0 :: bs)) (2 ^ 32) =
      256 * Int.bmod (LittleEndian.decode bs) (2 ^ 24) := by
    have hdecode : LittleEndian.decode (0 :: bs) = 256 * LittleEndian.decode bs := Nat.zero_add _
    rw [hdecode]
    by_cases hsign : 2 * LittleEndian.decode bs < 2 ^ 24
    · rw [(bmod_eq_self_iff (by omega) (by omega)).mpr (by omega),
        (bmod_eq_self_iff (by omega) hlt).mpr hsign]
      exact Int.natCast_mul _ _
    · rw [bmod_of_le (by omega) (by omega) (by omega), bmod_of_le (by omega) hlt (by omega)]
      omega
  have hrat := @Rat.mkRat_mul_left (Int.bmod (LittleEndian.decode bs) (2 ^ 24)) (2 ^ 24) 256
    (Nat.succ_ne_zero 255)
  rw [pcm24ToSample, hbmod]
  exact congrArg Sample.pcm hrat

/-- Different bytes are different samples. -/
theorem toSample_inj {bits : ℕ} {bs cs : List UInt8} (hbs : 8 * bs.length = bits)
    (hcs : 8 * cs.length = bits) :
    WaveFile.toSample bits bs = WaveFile.toSample bits cs ↔ bs = cs := by
  constructor
  · intro h
    rw [WaveFile.toSample, WaveFile.toSample] at h
    split_ifs at h with h32 h64
    · exact Sample.float.inj h
    · exact Sample.double.inj h
    · have hrat := Sample.pcm.inj h
      have hpow : (2 ^ bits : ℕ) ≠ 0 := Nat.ne_of_gt (Nat.two_pow_pos bits)
      have hcast : ((2 ^ bits : ℕ) : ℤ) ≠ 0 := by exact_mod_cast hpow
      have hbmod := mul_right_cancel₀ hcast ((Rat.mkRat_eq_iff hpow hpow).mp hrat)
      have hlt {ds : List UInt8} (hds : 8 * ds.length = bits) :
          LittleEndian.decode ds < 2 ^ bits := by
        have hlt := LittleEndian.decode_lt ds
        rwa [show (256 : ℕ) = 2 ^ 8 from rfl, ← Nat.pow_mul, hds] at hlt
      have hmod := congrArg (· % ((2 ^ bits : ℕ) : ℤ)) hbmod
      simp only [Int.bmod_emod] at hmod
      rw [← Int.natCast_mod, ← Int.natCast_mod, Nat.mod_eq_of_lt (hlt hbs),
        Nat.mod_eq_of_lt (hlt hcs)] at hmod
      exact LittleEndian.decode_injective (by omega) (Int.ofNat.inj hmod)
  · rintro rfl
    rfl

/-- Windows one after the other are the same in the buffer as in the file, unless the last of them
ends at the end of the file. -/
theorem windows_sysSlurpFile_iff {file : List UInt8} {d width n : ℕ} (hwidth : 0 < width)
    (hle : d + width * n ≤ file.length) :
    (∀ i < n,
      window (sysSlurpFile file) (d + width * i) width = window file (d + width * i) width) ↔
      n = 0 ∨ d + width * n < file.length ∨ file.getLast? = some 0 := by
  constructor
  · intro h
    by_contra hcon
    rw [not_or, not_or] at hcon
    rcases hcon with ⟨hn, hend, hlast⟩
    obtain ⟨m, rfl⟩ : ∃ m, n = m + 1 := Nat.exists_eq_succ_of_ne_zero hn
    obtain ⟨k, rfl⟩ : ∃ k, width = k + 1 := Nat.exists_eq_succ_of_ne_zero hwidth.ne'
    cases file using List.reverseRecOn with
    | nil =>
      rw [Nat.mul_succ] at hle
      exact absurd hle (by rw [List.length_nil]; omega)
    | append_singleton init a =>
      rw [List.length_append, List.length_singleton] at hle hend
      have hplace : d + (k + 1) * m + (k + 1) = init.length + 1 := by
        rw [Nat.mul_succ] at hle hend
        omega
      have heq := h m (Nat.lt_succ_self m)
      rw [sysSlurpFile_concat, window_concat hplace, window_concat hplace] at heq
      have hzero := List.append_cancel_left heq
      rw [List.getLast?_concat] at hlast
      exact hlast (by rw [List.singleton_inj.mp hzero])
  · intro h i hi
    rcases h with rfl | hend | hlast
    · exact absurd hi (Nat.not_lt_zero i)
    · refine window_sysSlurpFile ?_
      have hmul : width * (i + 1) ≤ width * n := Nat.mul_le_mul_left width hi
      rw [Nat.mul_succ] at hmul
      omega
    · rw [sysSlurpFile_of_last hlast]

namespace WaveFile

variable (w : WaveFile)

/-- The samples that the reader makes of the data chunk. -/
def decoded : List Sample :=
  (List.range (w.channels * w.frames)).map fun i =>
    if w.bits = 64 then
      .float (window (sysSlurpFile w.bytes) (w.dataPos + 8 + 4 * i) 4)
    else toSample w.bits (window (sysSlurpFile w.bytes) (w.dataPos + 8 + w.width * i) w.width)

theorem eight_mul_width : 8 * w.width = w.bits := by
  rw [width]
  have h := w.bits_eq
  omega

/-- The samples are in the data chunk. -/
theorem width_mul_le : w.width * (w.channels * w.frames) ≤ w.data.payload.length := by
  have h := Nat.mul_div_le w.data.payload.length (w.channels * w.width)
  rw [frames]
  calc w.width * (w.channels * (w.data.payload.length / (w.channels * w.width)))
      = w.channels * w.width * (w.data.payload.length / (w.channels * w.width)) := by
        rw [← Nat.mul_assoc, Nat.mul_comm w.width]
    _ ≤ w.data.payload.length := h

theorem audiofileCopySamples_eq :
    audiofileCopySamples (sysSlurpFile w.bytes) (w.dataPos + 8)
      ((w.channels * w.frames : ℕ) : ℤ) w.bits (Int.bmod w.tag (2 ^ 16)) = .ok w.decoded := by
  have hle := w.dataPos_le
  have hmul := w.width_mul_le
  have hin : w.dataPos + 8 + w.width * (w.channels * w.frames) ≤ (sysSlurpFile w.bytes).length := by
    rw [length_sysSlurpFile]
    omega
  have hwidth := w.eight_mul_width
  have hpcm (htag : w.tag = 1 ∨ w.tag = 65534) : ∃ type : ℤ, Int.bmod w.tag (2 ^ 16) = type ∧
      type ≠ waveFormatIeeeFloat ∧ (type = waveFormatPcm ∨ type = waveFormatExtensible) := by
    rcases htag with htag | htag
    · exact ⟨1, by rw [htag]; rfl, by decide, .inl rfl⟩
    · exact ⟨-2, by rw [htag]; rfl, by decide, .inr rfl⟩
  have hinside {i : ℕ} (hi : i ∈ List.range (w.channels * w.frames)) :
      (window (sysSlurpFile w.bytes) (w.dataPos + 8 + w.width * i) w.width).length = w.width := by
    have hmul' := Nat.mul_le_mul_left w.width (List.mem_range.mp hi)
    rw [Nat.mul_succ] at hmul'
    exact length_window (by omega)
  rw [decoded]
  rcases w.supported with ⟨htag, h16 | h24⟩ | ⟨htag, h32 | h64⟩
  · have hbits : w.bits = 16 := h16
    have hw : w.width = 2 := by omega
    rcases hpcm htag with ⟨type, htype, hfloat, hany⟩
    rw [audiofileCopySamples, htype, if_neg hfloat, hbits, if_pos ⟨hany, rfl⟩, ← hw, doloop_eq hin]
    rfl
  · have hbits : w.bits = 24 := h24
    have hw : w.width = 3 := by omega
    rcases hpcm htag with ⟨type, htype, hfloat, hany⟩
    rw [audiofileCopySamples, htype, if_neg hfloat, hbits, if_neg (fun h => by cases h.2),
      if_pos ⟨hany, rfl⟩, ← hw, doloop_eq hin]
    refine congrArg Except.ok (List.map_congr_left ?_)
    intro i hi
    exact pcm24ToSample_eq ((hinside hi).trans hw)
  · have hbits : w.bits = 32 := h32
    have hw : w.width = 4 := by omega
    have htype : Int.bmod w.tag (2 ^ 16) = waveFormatIeeeFloat := by
      rw [show w.tag = 3 from htag]
      rfl
    rw [audiofileCopySamples, if_pos htype, ← hw, doloop_eq hin, hbits]
    rfl
  · have hbits : w.bits = 64 := h64
    have hw : w.width = 8 := by omega
    have htype : Int.bmod w.tag (2 ^ 16) = waveFormatIeeeFloat := by
      rw [show w.tag = 3 from htag]
      rfl
    rw [audiofileCopySamples, if_pos htype, doloop_eq (by rw [hw] at hin; omega), hbits]
    rfl

/-- The reader's samples are those of the data chunk when floating point numbers have 32 bits and
the zero at the end of the buffer does not change one. -/
theorem decoded_iff :
    w.decoded = w.samples ↔ (w.bits = 64 → w.frames = 0) ∧
      (w.frames = 0 ∨ w.dataPos + 8 + w.width * (w.channels * w.frames) < w.bytes.length ∨
        w.bytes.getLast? = some 0) := by
  have hpos : 0 < w.channels := w.channels_pos
  have hle := w.dataPos_le
  have hmul := w.width_mul_le
  have hwidth := w.eight_mul_width
  have hzero : w.channels * w.frames = 0 ↔ w.frames = 0 := by
    rw [Nat.mul_eq_zero]
    exact or_iff_right hpos.ne'
  rw [decoded, samples, List.map_inj_left]
  by_cases h64 : w.bits = 64
  · simp only [if_pos h64, List.mem_range]
    constructor
    · intro h
      have hframes : w.frames = 0 := by
        by_contra hne
        have hsample := h 0 (Nat.pos_of_ne_zero fun hcon => hne (hzero.mp hcon))
        rw [toSample, if_neg (by omega), if_pos h64] at hsample
        cases hsample
      exact ⟨fun _ => hframes, .inl hframes⟩
    · rintro ⟨hframes, -⟩ i hi
      rw [hframes h64, Nat.mul_zero] at hi
      exact absurd hi (Nat.not_lt_zero i)
  · simp only [if_neg h64, List.mem_range]
    have hsample : ∀ i < w.channels * w.frames,
        (toSample w.bits (window (sysSlurpFile w.bytes) (w.dataPos + 8 + w.width * i) w.width) =
          toSample w.bits (window w.data.payload (w.width * i) w.width) ↔
        window (sysSlurpFile w.bytes) (w.dataPos + 8 + w.width * i) w.width =
          window w.bytes (w.dataPos + 8 + w.width * i) w.width) := by
      intro i hi
      have hmul' := Nat.mul_le_mul_left w.width hi
      rw [Nat.mul_succ] at hmul'
      rw [← w.window_data (by omega), ← Nat.add_assoc]
      apply toSample_inj
      · rw [length_window (by rw [length_sysSlurpFile]; omega), hwidth]
      · rw [length_window (by omega), hwidth]
    have hwindows := windows_sysSlurpFile_iff w.width_pos
      (show w.dataPos + 8 + w.width * (w.channels * w.frames) ≤ w.bytes.length by omega)
    rw [hzero] at hwindows
    constructor
    · intro h
      exact ⟨fun hcon => absurd hcon h64, hwindows.mp fun i hi => (hsample i hi).mp (h i hi)⟩
    · rintro ⟨-, hlast⟩ i hi
      exact (hsample i hi).mpr (hwindows.mpr hlast i hi)

omit w in
theorem readWave_of_header {file : List UInt8} {h : Header} {samples : List Sample}
    (hvalid : waveValidate (sysSlurpFile file) = .ok true)
    (hheader : readHeader (sysSlurpFile file) = .ok h)
    (hcopy : audiofileCopySamples (sysSlurpFile file) (h.data + 8) (h.nchan * h.nframes) h.bitdepth
      h.type = .ok samples) : readWave (some file) = .ok (h, samples) := by
  simp only [readWave, hvalid, hheader, bind, Except.bind, iffChunkHeaderSize, hcopy,
    Bool.true_eq_false, if_false]

theorem waveValidate_bytes : waveValidate (sysSlurpFile w.bytes) = .ok true := by
  have hlt := w.fmtPos_lt
  rw [fmtPos] at hlt
  have hriff : window (sysSlurpFile w.bytes) 0 4 = riffId := by
    rw [window_sysSlurpFile (by omega)]
    exact @window_append_exact _ [] riffId _
  have hwave : window (sysSlurpFile w.bytes) 8 4 = waveId := by
    rw [window_sysSlurpFile (by omega)]
    have h := @window_append_exact _ (riffId ++ LittleEndian.encode 4 (4 + w.body.length)) waveId
      w.body
    rwa [List.append_assoc] at h
  rw [waveValidate, if_neg (not_not.mpr hriff), if_neg (by rw [length_sysSlurpFile]; omega), hwave]
  rfl

/-- Both readers, for a file in which the two chunks are found and the numbers are not negative. -/
theorem readWave_eq (hfmt : firstMatch fmtId (sysSlurpFile w.bytes) = some w.fmtPos)
    (hdata : firstMatch dataId (sysSlurpFile w.bytes) = some w.dataPos)
    (hchannels : w.channels < 2 ^ 15) (hsize : w.data.payload.length < 2 ^ 31) :
    ∃ h, readHeader (sysSlurpFile w.bytes) = .ok h ∧ readWave (some w.bytes) = .ok (h, w.decoded) ∧
      h.fmt = w.fmtPos ∧ h.data = w.dataPos ∧ h.type = Int.bmod w.tag (2 ^ 16) ∧
      h.nchan = w.channels ∧ h.bitdepth = w.bits ∧ h.nframes = w.frames := by
  have hheader := w.readHeader_eq hfmt hdata
  have hnchan : Int.bmod w.channels (2 ^ 16) = w.channels :=
    (bmod_eq_self_iff (by omega) (by omega)).mpr (by omega)
  have hbytes : Int.bmod w.data.payload.length (2 ^ 32) = w.data.payload.length :=
    (bmod_eq_self_iff (by omega) (by omega)).mpr (by omega)
  have hframes : (w.data.payload.length : ℤ).tdiv (w.channels * w.width) = w.frames := by
    rw [← Int.natCast_mul, ← Int.ofNat_tdiv, frames]
  have hcopy := w.audiofileCopySamples_eq
  rw [hnchan, hbytes, hframes] at hheader
  rw [Int.natCast_mul] at hcopy
  generalize Int.bmod w.tag (2 ^ 16) = type at hheader hcopy ⊢
  exact ⟨_, hheader, readWave_of_header w.waveValidate_bytes hheader hcopy, rfl, rfl, rfl, rfl, rfl,
    rfl⟩

end WaveFile

/-- A size that is read as a negative number does not give the number of frames. -/
theorem payload_lt_of_frames {w : WaveFile} (hchannels : w.channels < 2 ^ 15)
    (hnframes : (Int.bmod w.data.payload.length (2 ^ 32)).tdiv
      (Int.bmod w.channels (2 ^ 16) * w.width) = w.frames) : w.data.payload.length < 2 ^ 31 := by
  by_contra hcon
  have hneg := bmod_of_le (n := w.data.payload.length) (m := 2 ^ 32) (by omega) w.data.payload_lt
    (by omega)
  have hself : Int.bmod w.channels (2 ^ 16) = w.channels :=
    (bmod_eq_self_iff (by omega) (by omega)).mpr (by omega)
  have hpos : 0 < w.frames := by
    have hwidth8 : w.width ≤ 8 := by
      have hwidth := w.eight_mul_width
      have hcases := w.bits_eq
      omega
    have hbytes : w.channels * w.width ≤ 32768 * 8 := Nat.mul_le_mul (by omega) hwidth8
    exact Nat.div_pos (by omega) (Nat.mul_pos w.channels_pos w.width_pos)
  rw [hself, hneg, ← Int.natCast_mul] at hnframes
  have hsub : (w.data.payload.length : ℤ) - (2 ^ 32 : ℕ) =
      -((4294967296 - w.data.payload.length : ℕ) : ℤ) := by
    have hlt := w.data.payload_lt
    omega
  rw [hsub, Int.neg_tdiv, ← Int.ofNat_tdiv] at hnframes
  generalize (4294967296 - w.data.payload.length) / (w.channels * w.width) = k at hnframes
  omega

theorem Reads.readable {w : WaveFile} (hreads : Reads w) : Readable w := by
  rcases hreads.header with ⟨h, hread, hfmt, hdata, -, hnchan, -, hnframes⟩
  rcases firstMatch_of_readHeader hread with ⟨hfirst, hsecond⟩
  rw [hfmt] at hfirst
  rw [hdata] at hsecond
  have hheader := w.readHeader_eq hfirst hsecond
  rw [hread] at hheader
  have hh := Except.ok.inj hheader
  rw [hh] at hnchan hnframes
  simp only at hnchan hnframes
  have hlt : w.channels < 2 ^ 16 := w.field_lt (by omega)
  have hchannels : w.channels < 2 ^ 15 := by
    have hself := (bmod_eq_self_iff (by omega) hlt).mp hnchan
    omega
  have hsize := payload_lt_of_frames hchannels hnframes
  rcases w.readWave_eq hfirst hsecond hchannels hsize with ⟨h', -, hwave, -⟩
  have hsamples : w.decoded = w.samples := by
    have hread := hreads.samples
    rw [audiofileWaveReadSamples, hwave] at hread
    exact Except.ok.inj hread
  rcases w.decoded_iff.mp hsamples with ⟨hfloat, hlast⟩
  exact ⟨w.firstMatch_fmt_iff.mp hfirst, w.firstMatch_data_iff.mp hsecond, hchannels, hsize,
    hfloat, hlast⟩

theorem Readable.reads {w : WaveFile} (h : Readable w) : Reads w := by
  rcases w.readWave_eq (w.firstMatch_fmt_iff.mpr h.fmt_first)
    (w.firstMatch_data_iff.mpr h.data_first) h.channels h.size with ⟨h', hheader, hwave, hfields⟩
  rw [w.decoded_iff.mpr ⟨h.float, h.last⟩] at hwave
  refine ⟨⟨h', hheader, hfields⟩, ?_, ?_⟩
  · rw [audiofileWaveReadSamples, hwave]
    rfl
  · rw [audioBufferFromWave, hwave]
    exact ⟨_, rfl, hfields.2.2.2.2.2, hfields.2.2.2.1, rfl⟩

/-- The readers take the header from the format chunk and the samples from the data chunk exactly
when the file is readable. -/
theorem reads_iff (w : WaveFile) : Reads w ↔ Readable w := ⟨Reads.readable, Readable.reads⟩

/-- One channel of PCM with 16 bits. -/
def monoFmt : Chunk where
  id := fmtId
  payload := [1, 0, 1, 0, 68, 172, 0, 0, 136, 88, 1, 0, 2, 0, 16, 0]
  pad := 0
  id_length := rfl
  payload_lt := by simp

/-- A list chunk that consists of the text `data`. -/
def listChunk : Chunk where
  id := [76, 73, 83, 84]
  payload := dataId
  pad := 0
  id_length := rfl
  payload_lt := by simp [dataId]

/-- A data chunk with one sample of 16 bits. -/
def sampleChunk (low high : UInt8) : Chunk where
  id := dataId
  payload := [low, high]
  pad := 0
  id_length := rfl
  payload_lt := by simp

/-- A file with one sample, and a list chunk before it or not. -/
def monoFile (list : Bool) (low high : UInt8) : WaveFile where
  before := []
  fmt := monoFmt
  between := if list then [listChunk] else []
  data := sampleChunk low high
  after := []
  fmt_id := rfl
  data_id := rfl
  others := by cases list <;> decide
  fmt_length := le_rfl
  supported := .inl ⟨.inl rfl, .inl rfl⟩
  channels_pos := Nat.one_pos

/-- A chunk with the text `data` before the data chunk, and a file that ends with a byte other than
zero. -/
theorem not_reads_mono : ¬ Reads (monoFile true 1 0) ∧ ¬ Reads (monoFile false 0 1) := by
  constructor
  · intro h
    exact h.readable.data_first 44 (by decide) rfl
  · intro h
    rcases h.readable.last with hframes | hend | hlast
    · exact absurd hframes (by decide)
    · exact absurd hend (by decide)
    · exact absurd hlast (by decide)

end Extempore.WaveFiles
