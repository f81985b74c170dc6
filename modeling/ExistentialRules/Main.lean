import ExistentialRules.Sample

/-!
# The command line

Analyzes the sample rules and prints what is reported, one event after the other. The first
argument, if there is one, says up to which level: `off`, `error`, `warn`, `info`, `debug` or
`trace`.
-/

open ExistentialRules

/-- Print the report on the sample rules. -/
def main (arguments : List String) : IO UInt32 := do
  match Sample.run with
  | .error e =>
    IO.eprintln e.message
    return 1
  | .ok report =>
    match Level.limitOf arguments.head? with
    | none => return 0
    | some limit =>
      for e in report.upTo limit do
        IO.println (e.level.name ++ " " ++ e.message)
      return 0
