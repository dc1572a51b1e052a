import XChain.Lib.Keystream
import XChain.Lib.Machine
import XChain.Lib.RlpUint

/-!
# RLPx frames

`rlpxFrameRW` of `p2p/rlpx.go`. A message is a frame: a header of 16 bytes with the size of the
frame, its MAC, the code and the payload padded to a multiple of 16 bytes, and the MAC of these. All
but the MACs is encrypted with AES in counter mode. The MACs are taken from a hash over everything
sent so far, which is seeded with its own sum through a block cipher. Writer and reader go through a
frame in different pieces.

* **`read_written`**: what is written in a run is read in a run.
-/

namespace XChain.Rlpx

open StepMachine Keystream List Nat UInt8
open GoText (Bytes)

/-- The key stream of AES, the sum of the MAC hash, and the block cipher of the MACs. -/
structure Crypto where
  keys : ℕ → UInt8
  sum : Bytes → Bytes
  le_length_sum : ∀ b, 16 ≤ (sum b).length
  encrypt : Bytes → Bytes
  length_encrypt : ∀ b, (encrypt b).length = 16

/-- The encoding of message codes: `rlp.EncodeToBytes` and `rlp.Decode` of a `uint64`. -/
structure CodeCodec where
  encode : UInt64 → Bytes
  decode : Bytes → Option (UInt64 × Bytes)
  length_encode_le : ∀ c, (encode c).length ≤ 9
  decode_encode : ∀ c rest, decode (encode c ++ rest) = some (c, rest)

/-- A message to send; the payload is in the pieces in which it is read. -/
structure Msg where
  code : UInt64
  size : ℕ
  payload : List Bytes
deriving DecidableEq

structure Received where
  code : UInt64
  size : ℕ
  payload : Bytes
deriving DecidableEq

/-- The writing side: the position in the key stream, what was written to the MAC hash, and what
was sent. -/
structure Writer where
  pos : ℕ
  mac : Bytes
  sent : Bytes
deriving DecidableEq

structure Reader where
  pos : ℕ
  mac : Bytes
  input : Bytes
deriving DecidableEq

inductive WriteError
  | sizeOverflow
  | conn
deriving DecidableEq

inductive ReadError
  | eof
  | badHeaderMAC
  | badFrameMAC
  | code
deriving DecidableEq

def maxUint24 : ℕ := 16777215

def uint32Size : ℕ := 4294967296

def putInt24 (v : ℕ) : Bytes := [ofNat (v / 65536), ofNat (v / 256), ofNat v]

def readInt24 : Bytes → ℕ
  | b0 :: b1 :: b2 :: _ => b2.toNat + b1.toNat * 256 + b0.toNat * 65536
  | _ => 0

def zeroHeader : Bytes := [194, 128, 128]

def header (fsize : ℕ) : Bytes := putInt24 fsize ++ zeroHeader ++ replicate 10 0

section Source

variable (c : Crypto) (codec : CodeCodec)

/-- Reseeds the hash with an encrypted seed: the first 16 bytes of the sum after seeding, and the
hash. -/
def updateMAC (mac seed : Bytes) : Bytes × Bytes :=
  let aesbuf := zipWith (· ^^^ ·) (c.encrypt (c.sum mac)) seed
  ((c.sum (mac ++ aesbuf)).take 16, mac ++ aesbuf)

variable (up : ℕ → Bool)

/-- `conn.Write`; it fails at the positions where the connection is not up. -/
def Writer.write (w : Writer) (b : Bytes) : Except WriteError Writer :=
  if up w.sent.length then .ok { w with sent := w.sent ++ b } else .error .conn

/-- `tee.Write`: encrypts, sends and hashes. -/
def Writer.tee (w : Writer) (b : Bytes) : Except WriteError Writer := do
  let data := crypt c.keys w.pos b
  let w ← Writer.write up { w with pos := w.pos + b.length } data
  .ok { w with mac := w.mac ++ data }

def Writer.pad (w : Writer) (fsize : ℕ) : Except WriteError Writer :=
  if 0 < fsize % 16 then w.tee c up (replicate (16 - fsize % 16) 0) else .ok w

def writeMsg (w : Writer) (msg : Msg) : Except WriteError Writer :=
  let ptype := codec.encode msg.code
  let fsize := (ptype.length + msg.size) % uint32Size
  if maxUint24 < fsize then .error .sizeOverflow
  else do
    let head := crypt c.keys w.pos (header fsize)
    let seeded := updateMAC c w.mac head
    let w ← Writer.write up { w with pos := w.pos + 16, mac := seeded.2 } (head ++ seeded.1)
    let w ← w.tee c up ptype
    let w ← msg.payload.foldlM (Writer.tee c up) w
    let w ← w.pad c up fsize
    let seeded := updateMAC c w.mac (c.sum w.mac)
    Writer.write up { w with mac := seeded.2 } seeded.1

def readMsg (r : Reader) : Except ReadError (Received × Reader) :=
  if r.input.length < 32 then .error .eof
  else
    let head := r.input.take 16
    let seeded := updateMAC c r.mac head
    if seeded.1 ≠ (r.input.drop 16).take 16 then .error .badHeaderMAC
    else
      let fsize := readInt24 (crypt c.keys r.pos head)
      let rsize := if 0 < fsize % 16 then fsize + (16 - fsize % 16) else fsize
      let input := r.input.drop 32
      if input.length < rsize then .error .eof
      else
        let framebuf := input.take rsize
        let mac := seeded.2 ++ framebuf
        let input := input.drop rsize
        if input.length < 16 then .error .eof
        else
          let seeded := updateMAC c mac (c.sum mac)
          if seeded.1 ≠ input.take 16 then .error .badFrameMAC
          else match codec.decode ((crypt c.keys (r.pos + 16) framebuf).take fsize) with
            | none => .error .code
            | some (code, payload) =>
              .ok (⟨code, payload.length % uint32Size, payload⟩,
                ⟨r.pos + 16 + rsize, seeded.2, input.drop 16⟩)

def readMsgs : ℕ → Reader → Except ReadError (List Received × Reader)
  | 0, r => .ok ([], r)
  | n + 1, r => do
    let first ← readMsg c codec r
    let rest ← readMsgs n first.2
    .ok (first.1 :: rest.1, rest.2)

end Source

open Writer

/-! ## Pieces -/

section Pieces

variable {c : Crypto} {codec : CodeCodec} {up : ℕ → Bool} {w w' : Writer} {b : Bytes}

theorem length_updateMAC (c : Crypto) (mac seed : Bytes) : (updateMAC c mac seed).1.length = 16 :=
  length_take_of_le (c.le_length_sum _)

theorem length_header (fsize : ℕ) : (header fsize).length = 16 := rfl

theorem readInt24_header {fsize : ℕ} (h : fsize ≤ maxUint24) :
    readInt24 (header fsize) = fsize := by
  show (ofNat fsize).toNat + (ofNat (fsize / 256)).toNat * 256 +
    (ofNat (fsize / 65536)).toNat * 65536 = fsize
  rw [toNat_ofNat', toNat_ofNat', toNat_ofNat']
  unfold maxUint24 at h
  omega

variable (c) in
def Writer.push (w : Writer) (b : Bytes) : Writer :=
  ⟨w.pos + b.length, w.mac ++ crypt c.keys w.pos b, w.sent ++ crypt c.keys w.pos b⟩

theorem Writer.push_nil (w : Writer) : w.push c [] = w := by
  simp [push, crypt]

theorem Writer.push_push (w : Writer) (a b : Bytes) :
    (w.push c a).push c b = w.push c (a ++ b) := by
  unfold push
  rw [crypt_append, length_append, add_assoc, append_assoc, append_assoc]

theorem Writer.write_eq_ok (h : w.write up b = .ok w') : w' = { w with sent := w.sent ++ b } := by
  unfold write at h
  split_ifs at h
  cases h
  rfl

theorem Writer.tee_eq_ok (h : w.tee c up b = .ok w') : w' = w.push c b := by
  obtain ⟨v, hwrite, h⟩ := bind_eq_ok h
  cases h
  rw [write_eq_ok hwrite]
  rfl

theorem Writer.foldlM_tee_eq_ok : ∀ {pieces : List Bytes} {w w' : Writer},
    pieces.foldlM (tee c up) w = .ok w' → w' = w.push c pieces.flatten
  | [], w, w', h => by
    cases h
    rw [flatten_nil, push_nil]
  | b :: pieces, w, w', h => by
    rw [foldlM_cons] at h
    obtain ⟨v, htee, h⟩ := bind_eq_ok h
    rw [foldlM_tee_eq_ok h, tee_eq_ok htee, push_push, flatten_cons]

end Pieces

/-! ## A frame -/

section Frame

variable (c : Crypto) (codec : CodeCodec)

def content (msg : Msg) : Bytes := codec.encode msg.code ++ msg.payload.flatten

def rounded (n : ℕ) : ℕ := if 0 < n % 16 then n + (16 - n % 16) else n

def body (msg : Msg) : Bytes :=
  content codec msg ++
    replicate (rounded (content codec msg).length - (content codec msg).length) 0

def sealedHead (pos : ℕ) (msg : Msg) : Bytes :=
  crypt c.keys pos (header (content codec msg).length)

def sealedBody (pos : ℕ) (msg : Msg) : Bytes := crypt c.keys (pos + 16) (body codec msg)

/-- What was hashed behind header and content of a frame. -/
def bodyMAC (pos : ℕ) (mac : Bytes) (msg : Msg) : Bytes :=
  (updateMAC c mac (sealedHead c codec pos msg)).2 ++ sealedBody c codec pos msg

/-- The MAC of the content, and the hash behind the frame. -/
def frameMAC (pos : ℕ) (mac : Bytes) (msg : Msg) : Bytes × Bytes :=
  updateMAC c (bodyMAC c codec pos mac msg) (c.sum (bodyMAC c codec pos mac msg))

def frame (pos : ℕ) (mac : Bytes) (msg : Msg) : Bytes :=
  sealedHead c codec pos msg ++ (updateMAC c mac (sealedHead c codec pos msg)).1 ++
    sealedBody c codec pos msg ++ (frameMAC c codec pos mac msg).1

variable {c codec} {up : ℕ → Bool} {msg : Msg}

theorem le_rounded (n : ℕ) : n ≤ rounded n := by
  unfold rounded
  split
  · exact le_add_right _ _
  · exact le_rfl

theorem length_body (msg : Msg) : (body codec msg).length = rounded (content codec msg).length := by
  rw [body, length_append, length_replicate]
  exact add_sub_of_le (le_rounded _)

theorem pad_eq_ok {w w' : Writer}
    (h : (w.push c (content codec msg)).pad c up (content codec msg).length = .ok w') :
    w' = w.push c (body codec msg) := by
  unfold pad at h
  unfold body rounded
  by_cases hpad : 0 < (content codec msg).length % 16
  · rw [if_pos hpad] at h ⊢
    rw [tee_eq_ok h, push_push, Nat.add_sub_cancel_left]
  · rw [if_neg hpad] at h ⊢
    cases h
    rw [Nat.sub_self, replicate_zero, append_nil]

/-- **A message that is written is a frame.** -/
theorem writeMsg_eq_ok {w w' : Writer} (hlength : msg.size = msg.payload.flatten.length)
    (hsize : msg.size < uint32Size - 16) (h : writeMsg c codec up w msg = .ok w') :
    (content codec msg).length ≤ maxUint24 ∧
      w' = ⟨w.pos + 16 + (body codec msg).length, (frameMAC c codec w.pos w.mac msg).2,
        w.sent ++ frame c codec w.pos w.mac msg⟩ := by
  have hcode := codec.length_encode_le msg.code
  have hfsize : ((codec.encode msg.code).length + msg.size) % uint32Size =
      (content codec msg).length := by
    rw [content, length_append, ← hlength, mod_eq_of_lt]
    omega
  unfold writeMsg at h
  dsimp only at h
  rw [hfsize] at h
  by_cases hmax : maxUint24 < (content codec msg).length
  · rw [if_pos hmax] at h
    cases h
  rw [if_neg hmax] at h
  refine ⟨not_lt.mp hmax, ?_⟩
  -- the writes one after the other
  obtain ⟨w₁, hhead, h⟩ := bind_eq_ok h
  obtain ⟨w₂, hptype, h⟩ := bind_eq_ok h
  obtain ⟨w₃, hpayload, h⟩ := bind_eq_ok h
  have hcontent : w₃ = w₁.push c (content codec msg) := by
    rw [foldlM_tee_eq_ok hpayload, tee_eq_ok hptype, push_push]
    rfl
  rw [hcontent] at h
  obtain ⟨w₄, hpadding, h⟩ := bind_eq_ok h
  rw [write_eq_ok h, pad_eq_ok hpadding, write_eq_ok hhead]
  unfold push frame frameMAC bodyMAC sealedHead sealedBody
  simp only [append_assoc]

/-- **A frame is read in the state in which it was written.** -/
theorem readMsg_frame {pos : ℕ} {mac rest : Bytes} (hlength : msg.size = msg.payload.flatten.length)
    (hsize : msg.size < uint32Size) (hmax : (content codec msg).length ≤ maxUint24) :
    readMsg c codec ⟨pos, mac, frame c codec pos mac msg ++ rest⟩ =
      .ok (⟨msg.code, msg.size, msg.payload.flatten⟩,
        ⟨pos + 16 + (body codec msg).length, (frameMAC c codec pos mac msg).2, rest⟩) := by
  have hhead : (sealedHead c codec pos msg).length = 16 := by
    rw [sealedHead, length_crypt, length_header]
  have hbody : (sealedBody c codec pos msg).length = (body codec msg).length := by
    rw [sealedBody, length_crypt]
  have hheadMAC := length_updateMAC c mac (sealedHead c codec pos msg)
  have hframeMAC : (frameMAC c codec pos mac msg).1.length = 16 := length_updateMAC ..
  -- the four parts of the input
  have hinput : frame c codec pos mac msg ++ rest = sealedHead c codec pos msg ++
      ((updateMAC c mac (sealedHead c codec pos msg)).1 ++
        (sealedBody c codec pos msg ++ ((frameMAC c codec pos mac msg).1 ++ rest))) := by
    unfold frame
    simp only [append_assoc]
  have hdrop : (frame c codec pos mac msg ++ rest).drop 32 =
      sealedBody c codec pos msg ++ ((frameMAC c codec pos mac msg).1 ++ rest) := by
    rw [show 32 = 16 + 16 from rfl, ← drop_drop, hinput, drop_left' hhead, drop_left' hheadMAC]
  have hfsize : readInt24 (crypt c.keys pos (sealedHead c codec pos msg)) =
      (content codec msg).length := by
    rw [sealedHead, crypt_crypt, readInt24_header hmax]
  unfold readMsg
  dsimp only
  have hlong : ¬ (frame c codec pos mac msg ++ rest).length < 32 := by
    rw [hinput]
    simp only [length_append]
    omega
  rw [hdrop, if_neg hlong, hinput, take_left' hhead, drop_left' hhead,
    take_left' hheadMAC, if_neg (not_not_intro rfl), hfsize]
  have hrsize : (if 0 < (content codec msg).length % 16 then
      (content codec msg).length + (16 - (content codec msg).length % 16)
      else (content codec msg).length) = (body codec msg).length := by
    rw [length_body]
    rfl
  rw [hrsize, take_left' hbody, drop_left' hbody, if_neg, if_neg,
    take_left' hframeMAC, drop_left' hframeMAC]
  · have hcontent : (crypt c.keys (pos + 16) (sealedBody c codec pos msg)).take
        (content codec msg).length = content codec msg := by
      rw [sealedBody, crypt_crypt, body, take_left]
    rw [if_neg, hcontent, content, codec.decode_encode]
    · dsimp only
      rw [← hlength, mod_eq_of_lt hsize]
      rfl
    · exact not_not_intro rfl
  · rw [length_append]
    omega
  · rw [length_append]
    omega

end Frame

/-! ## Messages in a row -/

section Run

variable {c : Crypto} {codec : CodeCodec} {up : ℕ → Bool}

/-- **What is written in a run is read in a run.** -/
theorem read_written : ∀ {msgs : List Msg} {w w' : Writer},
    (∀ msg ∈ msgs, msg.size = msg.payload.flatten.length ∧ msg.size < uint32Size - 16) →
    msgs.foldlM (writeMsg c codec up) w = .ok w' →
    ∃ bytes, w'.sent = w.sent ++ bytes ∧ ∀ rest,
      readMsgs c codec msgs.length ⟨w.pos, w.mac, bytes ++ rest⟩ =
        .ok (msgs.map fun msg => ⟨msg.code, msg.size, msg.payload.flatten⟩, ⟨w'.pos, w'.mac, rest⟩)
  | [], w, w', _, h => by
    cases h
    exact ⟨[], (append_nil _).symm, fun rest => rfl⟩
  | msg :: msgs, w, w', hmsgs, h => by
    rw [foldlM_cons] at h
    obtain ⟨v, hwrite, h⟩ := bind_eq_ok h
    obtain ⟨hlength, hsize⟩ := hmsgs msg mem_cons_self
    obtain ⟨hmax, rfl⟩ := writeMsg_eq_ok hlength hsize hwrite
    obtain ⟨bytes, hsent, hread⟩ := read_written (fun m hm => hmsgs m (mem_cons_of_mem msg hm)) h
    refine ⟨frame c codec w.pos w.mac msg ++ bytes, ?_, fun rest => ?_⟩
    · rw [hsent, append_assoc]
    · rw [length_cons, readMsgs, append_assoc,
        readMsg_frame hlength (hsize.trans_le (sub_le _ _)) hmax]
      simp only [bind, Except.bind, hread rest]
      rfl

def rlpCodec : CodeCodec where
  encode code := RlpUint.encode code.toNat
  decode input := (RlpUint.decode input).map fun d => (UInt64.ofNat d.1, d.2)
  length_encode_le code := RlpUint.length_encode_le _ code.toNat_lt
  decode_encode code rest := by
    rw [RlpUint.decode_encode _ code.toNat_lt, Option.map_some, UInt64.ofNat_toNat]

def sampleCrypto : Crypto where
  keys n := ofNat (7 * n + 3)
  sum b := replicate 32 (b.foldl (fun x y => 5 * x + y) 1)
  le_length_sum b := by
    rw [length_replicate]
    decide
  encrypt b := (b ++ replicate 16 9).take 16
  length_encrypt b := by
    rw [length_take, length_append, length_replicate]
    omega

def sampleMsgs : List Msg := [⟨0, 3, [[1, 2], [3]]⟩, ⟨300, 0, []⟩]

theorem read_sampleMsgs : ∃ w' : Writer,
    sampleMsgs.foldlM (writeMsg sampleCrypto rlpCodec fun _ => true) ⟨0, [7], []⟩ = .ok w' ∧
      w'.sent.length = 128 ∧
      readMsgs sampleCrypto rlpCodec 2 ⟨0, [7], w'.sent⟩ =
        .ok ([⟨0, 3, [1, 2, 3]⟩, ⟨300, 0, []⟩], ⟨w'.pos, w'.mac, []⟩) := by
  have hrun : (sampleMsgs.foldlM (writeMsg sampleCrypto rlpCodec fun _ => true)
      ⟨0, [7], []⟩).toOption.map (·.sent.length) = some 128 := by decide +kernel
  obtain ⟨w', hwritten, hlength⟩ := Option.map_eq_some_iff.mp hrun
  cases hwrite : sampleMsgs.foldlM (writeMsg sampleCrypto rlpCodec fun _ => true)
      (⟨0, [7], []⟩ : Writer) with
  | error e =>
    rw [hwrite] at hwritten
    cases hwritten
  | ok v =>
    rw [hwrite] at hwritten
    cases hwritten
    obtain ⟨bytes, hsent, hread⟩ := read_written (by decide) hwrite
    refine ⟨w', rfl, hlength, ?_⟩
    have hall := hread []
    rw [append_nil, ← nil_append bytes, ← hsent] at hall
    exact hall

end Run

end XChain.Rlpx
