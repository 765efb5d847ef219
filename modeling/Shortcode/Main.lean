import Shortcode.CommandLine.Run

namespace Shortcode.CommandLine

/-- A place with what stands there. What has no text for a path cannot be opened. -/
def nodeAt (place : List RawText) : IO (List RawText × Option Node) := do
  let some path := (FilePath.ofPlace place).text? | return (place, none)
  let path := (← IO.currentDir) / path
  if ← path.isDir then return (place, some .directory)
  try
    return (place, some (.file (← IO.FS.readBinFile path)))
  catch _ => return (place, none)

/-- Texts each of which is ended by a zero byte. -/
def readRaw (path : String) : IO (List RawText) := do
  let bytes ← IO.FS.readBinFile path
  return ((bytes.data.toList.splitOn 0).map RawText.mk).dropLast

def environment : IO Environment := do
  return ⟨(← readRaw "/proc/self/environ").map (·.bytes)⟩

/-- The arguments behind the name of the program. -/
def arguments : IO (List RawText) := do
  return (← readRaw "/proc/self/cmdline").tail

def readAll (stream : IO.FS.Stream) : IO ByteArray := do
  let mut bytes := ByteArray.empty
  let mut more := true
  while more do
    let chunk ← stream.read 65536
    bytes := bytes ++ chunk
    more := !chunk.isEmpty
  return bytes

def call : IO Outcome := do
  let args ← arguments
  let names := ((← IO.currentDir).toString.splitOn "/").filter (· ≠ "")
  let cwd := names.map RawText.ofString
  let w : World := ⟨fun _ => none, cwd, ← environment, .empty⟩
  match w.invocation args with
  | .error _ => return w.run args
  | .ok i =>
    let nodes ← (i.places cwd).mapM nodeAt
    let tree : FileTree := fun place => (nodes.find? fun node => node.1 = place).bind (·.2)
    let w := { w with tree }
    if i.command.file?.isNone && (w.setup i).toBool then
      return { w with stdin := ← readAll (← IO.getStdin) }.run args
    return w.run args

end Shortcode.CommandLine

def main : IO UInt32 := do
  let outcome ← Shortcode.CommandLine.call
  IO.eprint outcome.stderr
  IO.print outcome.stdout
  return outcome.code.toUInt32
