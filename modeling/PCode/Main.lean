import PCode.Command

namespace PCode

def FileError.ofSystem : IO.Error → FileError
  | .noFileOrDirectory .. => .missing
  | .inappropriateType _ code _ => if code = 21 then .isDirectory else .notDirectory
  | .permissionDenied .. => .system "Permission denied" 13
  | error => .system (toString error) 5

def readEntry (path : Path) : IO (Except FileError Entry) := do
  try
    return .ok (.file (← IO.FS.readBinFile path))
  catch error =>
    match FileError.ofSystem error with
    | .system _ 21 => return .ok .directory
    | cause => return .error cause

def readFiles (paths : List Path) : IO Files := do
  let entries ← paths.mapM fun path => return (path, ← readEntry path)
  return fun path => (entries.lookup path).getD (.error .missing)

end PCode

def main (arguments : List String) : IO UInt32 := do
  let paths := match PCode.Command.Invocation.ofArguments arguments with
    | .ok invocation => invocation.action.paths
    | .error _ => []
  let report := PCode.Command.execute arguments (← PCode.readFiles paths)
  (← IO.getStdout).putStr report.output
  (← IO.getStderr).putStr report.messages
  return report.exit.toUInt32
