import FlashCkpt.Driver.WorkerRuns

/-! Ioctls 114, 115 and 116: pass 1, the run list, the workers, and what is copied to the caller
at the end. Without confidential computing 114 falls back to ioctl 109, which then copies the
runs one after the other. -/
namespace FlashCkpt.Driver

open ByteImage Crypto Image

inductive MtIoctl where
  | readPagesResidentMt
  | readPagesResidentEncryptedMt
  | readDirtyDeltaEncryptedMt
  deriving DecidableEq, Repr

def MtIoctl.isCiphertext : MtIoctl → Bool
  | .readPagesResidentMt => false
  | _ => true

def MtIoctl.dirtyOnly : MtIoctl → Bool
  | .readDirtyDeltaEncryptedMt => true
  | _ => false

/-- The parameters, with a flag for each pointer that is not null. -/
structure CaptureParams where
  base : Nat
  length : Nat
  cpuBuf : Bool
  cpuBufSize : Nat
  gpuBuf : Bool
  gpuBufSize : Nat
  residencyMap : Bool
  cryptoMeta : Bool
  cryptoMetaSize : Nat
  numThreads : Nat
  inside : base + length ≤ 2 ^ 64

theorem firstPage_inside : 0 + pageSize ≤ 2 ^ 64 := by decide

/-- The caller's capability, confidential computing, whether the VA space has the GPU that is
asked for, and the VA spaces. -/
structure DriverState (Content : Type) where
  capable : Bool
  confComputing : Bool
  hasGpu : Bool
  spaces : List (CaptureSpace Content)

/-- What the calls on the way return. -/
structure CaptureEnv where
  pageBuf : Bool
  resmap : Bool
  gpuPages : Bool
  cryptoMeta : Bool
  grownMeta : Bool
  runLists : Bool
  copyOut : Nat → Nat
  grows : Nat → Bool
  pool : PoolEnv
  metas : Nat → CryptoMeta
  resmapCopied : Nat
  metaCopied : Nat
  bounce : Bool
  read : Transfer → Status × Bytes
  copied : Transfer → Nat

/-- What an ioctl returns, if it has, and what it has copied to the caller. -/
structure CaptureResult (Content : Type) where
  status : Option Status
  cpuCopies : List (CpuCopy Content)
  gpuWrites : List Write
  resmap : List Residency
  metas : Nat → CryptoMeta
  metaWritten : Nat
  cpuBytesOut : Nat
  gpuBytesOut : Nat
  numPages : Nat
  numTransfers : Nat
  submissions : List Submission

section Ioctls

variable {Content : Type} (which : MtIoctl) (sys : DriverState Content) (p : CaptureParams)
variable (env : CaptureEnv)

/-- The checks at the head. -/
def CaptureParams.check (p : CaptureParams) (sys : DriverState Content) : Option Status :=
  if !sys.capable then some .insufficientPermissions
  else if p.length = 0 ∨ p.length % pageSize ≠ 0 ∨ p.base % pageSize ≠ 0 then some .invalidArgument
  else if !p.residencyMap then some .invalidArgument
  else none

/-- The requests that are turned down before anything is captured. -/
def rejected : Option Status :=
  match p.check sys with
  | some status => some status
  | none => if which.isCiphertext && !sys.confComputing then some .notSupported else none

def captureCall (dirtyOnly : Bool) (copyOut : Nat → Nat) (grows : Nat → Bool) : CaptureCall where
  base := p.base / pageSize
  pages := p.length / pageSize
  dirtyOnly := dirtyOnly
  cpuBuf := p.cpuBuf
  hasGpu := sys.hasGpu
  copyOut := copyOut
  grows := grows

/-- A capture that has not come to its end; the results in the parameters are not set. -/
def CaptureResult.stopped (env : CaptureEnv) (status : Option Status) (copies : List (CpuCopy Content))
    (writes : List Write) : CaptureResult Content :=
  ⟨status, copies, writes, [], env.metas, 0, 0, 0, 0, 0, []⟩

def captureJob (s : Pass1 Content) : Job where
  transfers := transfersFrom 0 (buildRuns s.gpuPages)
  userGpuBuf := p.gpuBuf
  isCiphertext := which.isCiphertext

/-- The run list and the workers, if there are GPU pages. -/
def pass2 (s : Pass1 Content) : Option PoolResult :=
  if s.gpuPages.isEmpty then some ⟨some .ok, 0, ⟨env.metas, []⟩, []⟩
  else if !env.runLists then some ⟨some .noMemory, 0, ⟨env.metas, []⟩, []⟩
  else runWorkers (captureJob which p s) p.numThreads env.pool ⟨env.metas, []⟩

/-- The residency map and the metadata are copied to the caller last. -/
def finishCapture (s : Pass1 Content) (r : PoolResult) : CaptureResult Content :=
  let stop : Option Status → Nat → CaptureResult Content := fun status written =>
    { CaptureResult.stopped env status s.copies r.handOver.writes with metaWritten := written }
  let size := r.numTransfers * cryptoMetaSize
  let hasMeta := which.isCiphertext && decide (0 < r.numTransfers) && p.cryptoMeta
  if r.status ≠ some .ok then stop r.status 0
  else if env.resmapCopied < p.length / pageSize then stop (some .invalidArgument) 0
  else if hasMeta && decide (p.cryptoMetaSize < size) then stop (some .invalidArgument) 0
  else if hasMeta && decide (env.metaCopied < size) then stop (some .invalidArgument) env.metaCopied
  else
    { status := some .ok
      cpuCopies := s.copies
      gpuWrites := r.handOver.writes
      resmap := s.resmap
      metas := r.handOver.metas
      metaWritten := if hasMeta then size else 0
      cpuBytesOut := s.cpuOff
      gpuBytesOut := s.gpuPages.length * pageSize
      numPages := p.length / pageSize
      numTransfers := r.numTransfers
      submissions := r.submissions }

/-- What the three ioctls do with confidential computing. -/
def mtCapture : Option (CaptureResult Content) :=
  let s := pass1 (captureCall sys p which.dirtyOnly env.copyOut env.grows) sys.spaces
  if !env.pageBuf || !env.resmap || !env.gpuPages || (which.isCiphertext && !env.cryptoMeta) then
    some (.stopped env (some .noMemory) [] [])
  else if s.status ≠ .ok then some (.stopped env (some s.status) s.copies [])
  else if !sys.hasGpu then some (.stopped env (some .invalidDevice) s.copies [])
  else if which.isCiphertext &&
      (decide ((2 ^ 64 - 1) / cryptoMetaSize < s.gpuCap) || !env.grownMeta) then
    some (.stopped env (some .noMemory) s.copies [])
  else (pass2 which p env s).map (finishCapture which p env s)

/-- The runs that ioctl 109 copies: without its bounce buffer each page is one. -/
def serialRuns (s : Pass1 Content) : List Transfer :=
  transfersFrom 0 (if env.bounce then buildRuns s.gpuPages
    else s.gpuPages.map fun record => ⟨record.2, [record.1]⟩)

/-- The copies of ioctl 109, up to the first one that fails. -/
def serialCopy (gpuBuf : Bool) : List Transfer → Status × List Write
  | [] => (.ok, [])
  | t :: rest =>
      if (env.read t).1 ≠ .ok then ((env.read t).1, [])
      else if gpuBuf then
        let w : Write := ⟨t.offset, ((env.read t).2.take t.bytes).take (env.copied t)⟩
        if env.copied t < t.bytes then (.invalidArgument, [w])
        else ((serialCopy gpuBuf rest).1, w :: (serialCopy gpuBuf rest).2)
      else serialCopy gpuBuf rest

/-- Ioctl 109 without confidential computing. It says how far it came also where it fails. -/
def readPagesResident : CaptureResult Content :=
  let s := pass1 (captureCall sys p false env.copyOut env.grows) sys.spaces
  let serial := serialCopy env p.gpuBuf (serialRuns env s)
  let ended : Status → List Write → List Residency → CaptureResult Content :=
    fun status writes resmap =>
      { CaptureResult.stopped env (some status) s.copies writes with
        resmap := resmap
        cpuBytesOut := s.cpuOff
        gpuBytesOut := s.gpuPages.length * pageSize
        numPages := p.length / pageSize }
  if !env.pageBuf then .stopped env (some .noMemory) [] []
  else if !env.resmap || !env.gpuPages then
    { CaptureResult.stopped env (some .noMemory) [] [] with numPages := p.length / pageSize }
  else if s.status ≠ .ok then ended s.status [] []
  else if serial.1 ≠ .ok then ended serial.1 serial.2 []
  else if env.resmapCopied < p.length / pageSize then ended .invalidArgument serial.2 []
  else ended .ok serial.2 s.resmap

/-- Ioctls 114, 115 and 116. -/
def mtIoctl : Option (CaptureResult Content) :=
  match rejected which sys p with
  | some status => some (.stopped env (some status) [] [])
  | none =>
      if sys.confComputing then mtCapture which sys p env else some (readPagesResident sys p env)

end Ioctls

end FlashCkpt.Driver
