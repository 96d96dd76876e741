import Rearrange.Batch

namespace Rearrange

def Origin.read : Origin → IO (Except ReadFailure ByteArray)
  | stdin => do
    let input ← IO.getStdin
    let mut bytes := ByteArray.empty
    repeat
      let chunk ← input.read 65536
      if chunk.isEmpty then break
      bytes := bytes ++ chunk
    return .ok bytes
  | file path => do
    try
      return .ok (← IO.FS.readBinFile path)
    catch
      | .noFileOrDirectory .. => return .error .missing
      | e => return .error (.other (toString e))

def Origin.ofArguments : List String → Origin
  | path :: _ => file path
  | [] => stdin

end Rearrange

def main (args : List String) : IO UInt32 := do
  let origin := Rearrange.Origin.ofArguments args
  let batch := Rearrange.Batch.runBytes origin (← origin.read)
  IO.print batch.printed
  for error in batch.errors do
    IO.eprintln error
  return if batch.success then 0 else 1
