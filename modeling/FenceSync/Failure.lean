import FenceSync.Files.Basic
/-!
# Failures of a run

What stops a run before or between documents; a block that cannot be filled never does.
-/
namespace FenceSync

inductive Failure
  | io (cause : FileError)
  | configParse (detail : Text)
  | invalidPattern (pattern reason : Text)
  | noInputFiles (patterns : Text)
  | stdoutWithMultipleFiles (count : Nat)
  | symlinkCycle (path : Text)
deriving DecidableEq, Repr

namespace Failure

def message : Failure → Text
  | .io cause => cause.message.toList
  | .configParse detail => "failed to parse config file: ".toList ++ detail
  | .invalidPattern pattern reason =>
    "invalid file pattern `".toList ++ pattern ++ "`: ".toList ++ reason
  | .noInputFiles patterns => "no markdown files matched: ".toList ++ patterns
  | .stdoutWithMultipleFiles count =>
    "`--stdout` can only be used with a single file, but ".toList ++ Text.ofNat count ++
      " files were matched".toList
  | .symlinkCycle path => "symlink cycle detected at: `".toList ++ path ++ "`".toList

/-- The diagnostic code. -/
def code : Failure → String
  | .io _ => "mdembed::io_error"
  | .configParse _ => "mdembed::config_parse"
  | .invalidPattern _ _ => "mdembed::invalid_pattern"
  | .noInputFiles _ => "mdembed::no_input_files"
  | .stdoutWithMultipleFiles _ => "mdembed::stdout_multiple_files"
  | .symlinkCycle _ => "mdembed::symlink_cycle"

/-- What to do about it. -/
def help? : Failure → Option String
  | .io _ => none
  | .configParse _ => some ("check that mdembed.toml is valid TOML with `source_root`, " ++
      "`strip_embed_comment` and/or an [exclude] section")
  | .invalidPattern _ _ => some "patterns use glob syntax, for example `docs/**/*.md`"
  | .noInputFiles _ =>
    some "pass one or more file paths or glob patterns, for example `mdembed README.md`"
  | .stdoutWithMultipleFiles _ =>
    some "narrow the file arguments down to one document or drop `--stdout`"
  | .symlinkCycle _ => some "remove the circular symlink or exclude this path"

/-- The report of a failure without colours: its code, its message and what to do about it. -/
def report (f : Failure) : Text :=
  let help := match f.help? with
    | some advice => "\n  help: ".toList ++ advice.toList
    | none => []
  f.code.toList ++ "\n\n  x ".toList ++ f.message ++ help

end Failure
end FenceSync
