import Streaming.Utf8.Decoder

/-!
# Pushing bytes into a decoder

The owner of a decoder feeds it bytes as they come and takes the items that they complete. If the
owner takes only some of the items, the bytes after the last of these are never offered. Asking what
the end of the input would be at this point leaves the decoder alone.
-/

namespace Streaming.Utf8

/-- What an owner does with a decoder. -/
inductive Use where
  /-- Feeds it bytes and takes all items. -/
  | feed (bytes : List UInt8)
  /-- Feeds it bytes and takes at most `k` items. -/
  | draw (k : Nat) (bytes : List UInt8)
  /-- Asks what the end of the input would be. -/
  | finish
deriving DecidableEq, Repr

/-- Whether the use is no more than a question. -/
def Use.isFinish : Use → Bool
  | .finish => true
  | .feed _ | .draw _ _ => false

namespace Decoder

/-- The items that a use gives, and the decoder after it. -/
def use (d : Decoder) : Use → List Item × Decoder
  | .feed bytes =>
    let (items, f) := Pull.collect (⟨d, bytes⟩ : Batch)
    (items, f.decoder)
  | .draw k bytes =>
    let (items, f) := Pull.take k (⟨d, bytes⟩ : Batch)
    (items, f.decoder)
  | .finish => ((d.finish?.map Except.error).toList, d)

/-- The items that uses give one after the other, and the decoder after them. -/
def session (d : Decoder) : List Use → List (List Item) × Decoder
  | [] => ([], d)
  | u :: uses =>
    let first := d.use u
    let rest := first.2.session uses
    (first.1 :: rest.1, rest.2)

end Decoder

end Streaming.Utf8
