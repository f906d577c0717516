import CodelCurve.Picture.Encoding
import CodelCurve.Session.Basic

/-! The command line: a session with the files and streams of the system. -/

namespace CodelCurve

/-- All bytes of a stream, after those already read. -/
partial def readAll (stream : IO.FS.Stream) (data : ByteArray) : IO ByteArray := do
  let more ← stream.read 65536
  if more.isEmpty then return data
  readAll stream (data ++ more)

/-- The surroundings that the system gives. -/
def systemShell : Shell IO where
  read name := do
    try
      return some (← IO.FS.readBinFile name)
    catch _ => return none
  write name contents := do
    let data := match contents with
      | .bytes data => data
      | .drawing drawing => drawing.encode
    try
      IO.FS.writeBinFile name data
      return true
    catch _ => return false
  input := do readAll (← IO.getStdin) .empty
  print := IO.print
  report := IO.eprintln

end CodelCurve

/-- Runs a session. The log follows the filter in the environment, if there is one. -/
def main (args : List String) : IO UInt32 := do
  CodelCurve.Session.run CodelCurve.systemShell (← IO.getEnv "CODELCURVE_LOG") args
