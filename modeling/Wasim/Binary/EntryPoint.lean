import Wasim.Base.Lane
import Wasim.Binary.Scan

/-!
# The lanes of `bin_read`

`bin_read_entry_point` as the program of one lane. The shared state holds what the lanes can
see of each other: the memory of `lane_sync_value`, the contexts, the module, the collected
diagnostics and the event that `bin_read` waits for. The local variables of a lane are what
its program closes over. One action is one loop turn or one step of the lane that no other
lane can look into, since a reader works on the context of its own lane.

Lane 0 scans the file and reads the structure of the code section, all lanes read sections
and function bodies, and lane 0 collects the diagnostics and signals the event. A file that
cannot be scanned makes every lane return early (`Lane.afterScan`).
-/

namespace Wasim

open Lanes

/-- What the lanes pass on through the shared memory: a slice or a pointer stands for what it
points to, `ctxs` for the slice of contexts. -/
inductive LaneWord where
  | null
  | ctxs
  | flag (ok : Bool)
  | module (m : BinModule)
  | codes (codes : List BinCode)
  deriving DecidableEq, Repr

def LaneWord.asFlag : LaneWord → Bool
  | .flag ok => ok
  | _ => false

structure ReadShared (n : ℕ) where
  memory : LaneWord := .null
  ctxs : Fin n → BinReadCtx := fun _ => {}
  module : Module := {}
  diags : List BinDiagnostic := []
  done : Bool := false

variable {n : ℕ}

namespace ReadShared

/-- `lane_ctx.shared_memory` -/
def laneMemory : SharedMemory (ReadShared n) LaneWord where
  read := memory
  write s w := { s with memory := w }
  read_write _ _ := rfl

/-- Lane `lane` leaves its context as `ctx`. -/
def setCtx (s : ReadShared n) (lane : Fin n) (ctx : BinReadCtx) : ReadShared n :=
  { s with ctxs := Function.update s.ctxs lane ctx }

end ReadShared

open ReadShared

/-- The contexts one after the other, each with its diagnostics in the order they were pushed. -/
def binCollectDiagnostics (ctxs : List BinReadCtx) : List BinDiagnostic :=
  ctxs.flatMap BinReadCtx.diags

namespace Lane

/-- An index or a pointer that is not there. -/
def crash : Prog (ReadShared n) := .act fun _ => .crashed

/-- `if lane == 0 { ... }` -/
def onLane0 (lane : Fin n) (f : ReadShared n → ReadShared n) (k : Prog (ReadShared n)) :
    Prog (ReadShared n) :=
  if lane.val = 0 then .act fun s => .returned (f s, k) else k

/-- The end: lane 0 collects the diagnostics and signals the event. -/
def collect (lane : Fin n) : Prog (ReadShared n) :=
  onLane0 lane (fun s => { s with diags := binCollectDiagnostics (List.ofFn s.ctxs) }) <|
  .sync <|
  onLane0 lane (fun s => { s with done := true }) <|
  .done

/-- `tdata.module.codes[i], _ = bin_read_code(ctx, bin_codes[i])` -/
def readCode (fuel : ℕ) (lane : Fin n) (binCodes : List BinCode) (i : ℕ) (s : ReadShared n) :
    Outcome (ReadShared n) :=
  match binCodes[i]? with
  | some binCode => do
    let code ← binReadCode fuel (s.ctxs lane) binCode
    if i < s.module.codes.length then
      return { s.setCtx lane code.ctx with
        module := { s.module with codes := s.module.codes.set i code.value } }
    else .crashed
  | none => .crashed

def readCodes (fuel : ℕ) (lane : Fin n) (binCodes : List BinCode) : Prog (ReadShared n) :=
  let binCodeRng := laneRange lane binCodes.length
  forEach (readCode fuel lane binCodes) (.sync (collect lane)) binCodeRng.indices

/-- `if ok { ... }`: the bodies go to all lanes, and are read. -/
def shareCodes (fuel : ℕ) (lane : Fin n) (binCodes : List BinCode) (ok : LaneWord) :
    Prog (ReadShared n) :=
  if ok.asFlag then
    laneSyncValue laneMemory lane (.codes binCodes) 0 fun
      | .codes binCodes => readCodes fuel lane binCodes
      | _ => crash
  else .sync (collect lane)

/-- Behind the structure of the code section: `ok` goes to all lanes. -/
def afterStructure (fuel : ℕ) (lane : Fin n) (ok : Bool) (binCodes : List BinCode) :
    Prog (ReadShared n) :=
  laneSyncValue laneMemory lane (.flag ok) 0 (shareCodes fuel lane binCodes)

/-- Every lane sets its scope to the code section, and lane 0 reads its structure. -/
def readStructure (fuel : ℕ) (lane : Fin n) (codeSection : BinSection) :
    Prog (ReadShared n) :=
  .act fun s =>
    let ctx := binReaderSetScope (s.ctxs lane) codeSection.pos codeSection.data
    if lane.val = 0 then do
      let binCodes ← binReadCodeSectionStructure ctx
      let s := s.setCtx lane binCodes.ctx
      let s :=
        if binCodes.ok then
          { s with
            module := { s.module with codes := List.replicate binCodes.value.length {} } }
        else s
      return (s, afterStructure fuel lane binCodes.ok binCodes.value)
    else .returned (s.setCtx lane ctx, afterStructure fuel lane true [])

def readCodeSection (fuel : ℕ) (lane : Fin n) (binModule : BinModule) : Prog (ReadShared n) :=
  if 0 ≤ binModule.codeSectionIndex then
    match binModule.sections[binModule.codeSectionIndex.toNat]? with
    | some codeSection => readStructure fuel lane codeSection
    | none => crash
  else .sync (collect lane)

def readSection (fuel : ℕ) (lane : Fin n) (binSection : BinSection) (s : ReadShared n) :
    Outcome (ReadShared n) :=
  if binSection.kind ≠ .code then do
    let m ← binReadSectionIntoModule fuel (s.ctxs lane) binSection s.module
    return { s.setCtx lane m.ctx with module := m.value }
  else .returned s

def readSections (fuel : ℕ) (lane : Fin n) (binModule : BinModule) : Prog (ReadShared n) :=
  forEach (readSection fuel lane) (.sync (readCodeSection fuel lane binModule))
    (laneRangeSlice lane binModule.sections)

/-- Behind the scan: `ok` goes to all lanes, and without it they all return. -/
def afterScan (fuel : ℕ) (lane : Fin n) (ok : Bool) (binModule : LaneWord) :
    Prog (ReadShared n) :=
  laneSyncValue laneMemory lane (.flag ok) 0 fun ok =>
  if ok.asFlag then
    laneSyncValue laneMemory lane binModule 0 fun
      | .module binModule => readSections fuel lane binModule
      | _ => crash
  else .done

/-- Lane 0 scans the file. -/
def scan (fuel : ℕ) (data : List UInt8) (lane : Fin n) : Prog (ReadShared n) :=
  if lane.val = 0 then
    .act fun s =>
      let m := binScanModule (binReaderSetScope (s.ctxs lane) 0 data)
      .returned ({ s.setCtx lane m.ctx with
        module := { s.module with version := m.value.version } },
        afterScan fuel lane m.ok (.module m.value))
  else afterScan fuel lane false .null

end Lane

def binReadEntryPoint (fuel : ℕ) (data : List UInt8) (lane : Fin n) : Prog (ReadShared n) :=
  .sync <|
  Lane.onLane0 lane (fun s => { s with ctxs := fun _ => {} }) <|
  laneSyncValue ReadShared.laneMemory lane (if lane.val = 0 then .ctxs else .null) 0 fun
    | .ctxs => Lane.scan fuel data lane
    | _ => Lane.crash

/-- `bin_read` has started its threads. -/
def binRead (fuel : ℕ) (data : List UInt8) (n : ℕ) : Config (ReadShared n) n :=
  ⟨{}, binReadEntryPoint fuel data⟩

end Wasim
