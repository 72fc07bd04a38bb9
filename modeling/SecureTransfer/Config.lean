import Mathlib.Data.Nat.Notation

set_option autoImplicit false

/-! # Constants of the transfer (`config.rs`)

Counts and sizes are `usize` in the source and `Nat` here; durations are nanoseconds on the clock
of the thread that reads them. -/

namespace SecureTransfer

/-- A byte string (`Vec<u8>`, `&[u8]`). -/
abbrev Bytes := List UInt8

/-- The payload of one UDP datagram. -/
abbrev Datagram := Bytes

/-- A reading of a monotonic clock, in nanoseconds. -/
abbrev Instant := ℕ

/-- A span of time, in nanoseconds. -/
abbrev Duration := ℕ

/-- `Duration::from_millis`. -/
def fromMillis (ms : ℕ) : Duration := ms * 1000000

def chunkSize : ℕ := 1400

/-- Encryption workers at the sender, decryption workers at the receiver (`pipeline.rs`). -/
def numWorkers : ℕ := 4

def packetsPerBlock : ℕ := 256

def pipelineDepth : ℕ := 4

def blockGracePeriodMs : ℕ := 1 - 0

def blockIdleTimeoutMs : ℕ := 100

def maxBlockRetryRounds : ℕ := 50

def wholeBlockRetransmitTimeoutMs : ℕ := 2000

def ackActivityCheckIntervalMs : ℕ := 200

/-- Capacity of the bounded channels, on both sides. -/
def channelCapacity : ℕ := pipelineDepth * packetsPerBlock * 2

end SecureTransfer
