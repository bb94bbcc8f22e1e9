import FlashCkpt.Gate.Protocol

/-! The command line of `ckpt_core` and the path of `main` it selects. -/
namespace FlashCkpt.Core

/-- The flags `main` parses, and whether `CKPT_DELTA_LEGACY` is set. -/
structure Options where
  pauseFirst : Bool := false
  encryptK3 : Bool := false
  useEncryptedIoctl : Bool := false
  stunCopy : Bool := false
  precopyBaseline : Bool := false
  coalesce : Bool := false
  staticImg : Bool := false
  deltaLegacy : Bool := false
  deriving DecidableEq, Repr

/-- `--coalesce` needs `--encrypted` and excludes `--precopy-baseline`. -/
def Options.valid (o : Options) : Bool :=
  !o.coalesce || (o.useEncryptedIoctl && !o.precopyBaseline)

/-- The first of the four paths whose test succeeds. -/
def Options.mode (o : Options) : Gate.Mode :=
  if !o.useEncryptedIoctl && !o.encryptK3 && !o.stunCopy && !o.pauseFirst && !o.precopyBaseline then
    .strawman
  else if o.precopyBaseline then .precopyBaseline
  else if o.stunCopy then .stunCopy
  else .mainPath

/-- Some path of this run may need the `k3` key. -/
def Options.needK3 (o : Options) : Bool := o.encryptK3 || o.useEncryptedIoctl || o.staticImg

end FlashCkpt.Core
