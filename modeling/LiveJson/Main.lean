import LiveJson.Command

open LiveJson

def readDocument (file : Option String) : IO String :=
  match file with
  | some file => IO.FS.readFile file
  | none => do
    let stdin ← IO.getStdin
    stdin.readToEnd

def main (args : List String) : IO UInt32 := do
  let result ←
    match Command.ofArgs? args with
    | none => pure Command.usage
    | some command => do
      let text ←
        try
          let text ← readDocument command.file
          pure (Except.ok text)
        catch e => pure (Except.error (toString e))
      pure (command.run text)
  IO.print result.stdout
  IO.eprint result.stderr
  return UInt32.ofNat result.code
