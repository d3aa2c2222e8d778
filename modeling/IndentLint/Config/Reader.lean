import IndentLint.Config.Basic
import IndentLint.File.Tree
import IndentLint.Toml.Document
import IndentLint.Toml.Free

/-!
# Reading configurations

A configuration is written in TOML.  Keys that are not known are passed over, a known key must hold a value of its
type, and only the files of an override have to be given.  A record may also be written as the row of its values.
-/

namespace IndentLint

namespace Toml

/-- A record: a table, or an array with the values in the order of their names. -/
inductive Record where
  | named (table : Table)
  | row (items : List Value)

/-- A record in either form. -/
def Value.record? (v : Value) : Option Record :=
  match v with
  | .array items => some (.row items)
  | _ => v.table?.map .named

/-- The value of the field `name`, which is the one at `index` in a row. -/
def Record.field? (r : Record) (name : String) (index : Nat) : Option Value :=
  match r with
  | named table => table.lookup name
  | row items => items[index]?

/-- The truth value of a boolean. -/
def Value.flag? : Value → Option Bool
  | .boolean b => some b
  | _ => none

/-- The items of an array. -/
def Value.items? : Value → Option (List Value)
  | .array items => some items
  | _ => none

/-- The texts of an array of strings. -/
def Value.texts? (v : Value) : Option (List String) :=
  v.items?.bind fun items => items.mapM Value.text?

/-- The keys of a table and their values, which may be of any type. -/
def Value.settings? (v : Value) : Option Table :=
  v.table?.bind freeEntries?

/-- Whether a value is an array or a table without content. -/
def Value.isHollow : Value → Bool
  | .array items => items.isEmpty
  | .table t => t.isEmpty
  | _ => false

/-- The severity that a value names: a word, or a table with the word as its only key and nothing under it. -/
def Value.severity? : Value → Option Severity
  | .string word => Severity.ofName? word
  | .table [(word, value)] => if value.isHollow then Severity.ofName? word else none
  | _ => none

/-- Reads a field that may be missing. -/
def Record.optional (r : Record) (name : String) (index : Nat) (fallback : α) (read : Value → Option α) : Option α :=
  match r.field? name index with
  | none => some fallback
  | some v => read v

end Toml

open Toml (Value Record)

namespace AnalyzerConfig

/-- Reads what is analysed. -/
def ofValue? (v : Value) : Option AnalyzerConfig := do
  let r ← v.record?
  let root ← r.optional "root" 0 default.root fun v => v.text?.map Path.mk
  let exclude ← r.optional "exclude" 1 default.exclude Value.texts?
  let respectGitignore ← r.optional "respect_gitignore" 2 default.respectGitignore Value.flag?
  let failOnParseError ← r.optional "fail_on_parse_error" 3 default.failOnParseError Value.flag?
  return { root, exclude, respectGitignore, failOnParseError }

end AnalyzerConfig

namespace Override

/-- Reads an override, whose files have to be given. -/
def ofValue? (v : Value) : Option Override := do
  let r ← v.record?
  let files ← (r.field? "files" 0).bind Value.texts?
  let properties ← r.optional "properties" 1 [] Value.settings?
  return { files, properties }

end Override

namespace RuleConfig

/-- Reads how a rule is treated. -/
def ofValue? (v : Value) : Option RuleConfig := do
  let r ← v.record?
  let enabled ← r.optional "enabled" 0 none fun v => v.flag?.map some
  let severity ← r.optional "severity" 1 none fun v => v.severity?.map some
  return { enabled, severity }

end RuleConfig

namespace Config

/-- Reads a configuration out of a document. -/
def ofTable? (table : Toml.Table) : Option Config := do
  let r := Record.named table
  let analyzer ← r.optional "analyzer" 0 .default AnalyzerConfig.ofValue?
  let properties ← r.optional "properties" 1 [] Value.settings?
  let overrides ← r.optional "overrides" 2 [] fun v => v.items?.bind fun items => items.mapM Override.ofValue?
  let rules ← r.optional "rules" 3 [] fun v => v.table?.bind fun t =>
    t.mapM fun e => (RuleConfig.ofValue? e.2).map fun c => (e.1, c)
  return { analyzer, properties, overrides, rules }

/-- Reads a configuration and checks its globs. -/
def parse (text : String) : Except ConfigError Config :=
  match (Toml.parse? text).bind ofTable? with
  | none => .error .malformed
  | some config => config.validate.map fun _ => config

/-- Reads the configuration in the file at an absolute path. -/
def load (files : FileNode) (path : Path) : Except ConfigError Config :=
  match files.read? path with
  | none => .error (.unreadable path)
  | some text => parse text

end Config

end IndentLint
