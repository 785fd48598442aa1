import FenceSync.Proofs.CommandLine.Stdout
import Mathlib.Algebra.GroupWithZero.Nat
import Mathlib.Data.List.Forall2
/-!
# The formats of a run

The status of a verifying run, its JSON summary and its annotations are made by different functions
from the same reports, and tell the same about every block.
-/
namespace FenceSync

namespace Json

def field (key : String) : Json → Json
  | .object fields => (fields.lookup key).getD .null
  | _ => .null

def elements : Json → List Json
  | .array elements => elements
  | _ => []

def natural? : Json → Option Nat
  | .number n => some n
  | _ => none

def text? : Json → Option Text
  | .string t => some t
  | _ => none

def documents (summary : Json) : List Json := (summary.field "documents").elements

def blocks (document : Json) : List Json := (document.field "blocks").elements

def isReplaced (block : Json) : Bool := (block.field "status").text? = some "replaced".toList

def isError (block : Json) : Bool := (block.field "severity").text? = some "error".toList

def remarkKind? (block : Json) : Option String :=
  if block.isReplaced then some "warning" else if block.isError then some "error" else none

def remarkStart? (document block : Json) : Option Text :=
  block.remarkKind?.map fun kind =>
    "::".toList ++ kind.toList ++ " file=".toList ++ ((document.field "file").text?.getD []) ++
      ",line=".toList ++ Text.ofNat ((block.field "start_line").natural?.getD 0) ++ "::".toList

/-- The annotations of a document are those that its summary leads to expect: as many warnings as
blocks out of date, as many errors as blocks that cannot be filled, in the order of the blocks and
each with the line of its block. -/
structure Annotates (document : Json) (remarks : List Text) : Prop where
  replaced : (document.field "replaced").natural? = some (document.blocks.countP isReplaced)
  warnings : remarks.countP (Text.startsWith "::warning ".toList) =
    document.blocks.countP isReplaced
  errors : remarks.countP (Text.startsWith "::error ".toList) = document.blocks.countP isError
  places : List.Forall₂ (· <+: ·) (document.blocks.filterMap document.remarkStart?) remarks

/-- A summary and the annotations of its documents tell what a status tells. -/
structure Tells (summary : Json) (remarks : List (List Text)) (status : Nat) : Prop where
  ok : status = 1 ↔ summary.field "ok" = .boolean false
  changed : status = 1 ↔ ∃ document ∈ summary.documents, document.field "changed" = .boolean true
  replaced : status = 1 ↔
    0 < (summary.documents.filterMap fun document => (document.field "replaced").natural?).sum
  annotates : List.Forall₂ Annotates summary.documents remarks

end Json

/-- No reason to leave a block alone is reported like a block that is filled. -/
theorem SkipReason.code_ne_replaced (reason : SkipReason) : reason.code ≠ "replaced" := by
  cases reason <;> simp [code]

theorem Report.replacedCount_pos_iff (report : Report) :
    0 < report.replacedCount ↔ report.changed = true := by
  rw [replacedCount, List.countP_pos_iff, changed, List.any_eq_true]

namespace Reporter

variable (r r' : Reporter) (rel : Text) (b : Block)

@[simp]
theorem isReplaced_blockJson : (r.blockJson b).isReplaced = b.outcome.isReplaced := by
  rw [blockJson]
  cases b.outcome with
  | replaced text lineCount => rfl
  | unchanged reason =>
    refine decide_eq_false fun h => reason.code_ne_replaced ?_
    exact String.toList_inj.1 (Option.some.inj h)

@[simp]
theorem isError_blockJson : (r.blockJson b).isError = isError b := by
  rw [blockJson, isError]
  cases b.outcome with
  | replaced text lineCount => rfl
  | unchanged reason =>
    simp only [Outcome.skipReason?, Option.any_some]
    cases reason.severity <;> rfl

/-- A block that can be filled is no error. -/
theorem isError_eq_false_of_isReplaced (h : (r.blockJson b).isReplaced = true) :
    (r.blockJson b).isError = false := by
  rw [isReplaced_blockJson] at h
  rw [isError_blockJson, isError]
  cases hb : b.outcome with
  | replaced text lineCount => rfl
  | unchanged reason =>
    rw [hb] at h
    cases h

section

variable {r}
variable (hr : r.mode = .verify)

include hr

/-- The annotation of a block is of the kind that its summary leads to expect. -/
theorem exists_remark?_eq : ∃ message,
    r.remark? rel b = (r'.blockJson b).remarkKind?.map (remarkLine · rel b message) := by
  rw [Json.remarkKind?, isReplaced_blockJson, isError_blockJson, remark?, isError]
  cases b.outcome with
  | replaced text lineCount => exact ⟨_, if_pos hr⟩
  | unchanged reason =>
    refine ⟨reason.message, ?_⟩
    by_cases hs : reason.severity = .error <;>
      simp [hs, Outcome.isReplaced, Outcome.skipReason?]

theorem warns_remark? :
    ((r.remark? rel b).map (Text.startsWith "::warning ".toList)).getD false =
      (r'.blockJson b).isReplaced := by
  obtain ⟨message, hremark⟩ := exists_remark?_eq r' rel b hr
  rw [hremark, Json.remarkKind?]
  cases (r'.blockJson b).isReplaced <;> cases (r'.blockJson b).isError <;> rfl

theorem fails_remark? :
    ((r.remark? rel b).map (Text.startsWith "::error ".toList)).getD false =
      (r'.blockJson b).isError := by
  obtain ⟨message, hremark⟩ := exists_remark?_eq r' rel b hr
  rw [hremark, Json.remarkKind?]
  cases hreplaced : (r'.blockJson b).isReplaced with
  | true =>
    rw [isError_eq_false_of_isReplaced r' b hreplaced]
    rfl
  | false => cases (r'.blockJson b).isError <;> rfl

end

theorem changed_documentJson (report : Report) :
    (r'.documentJson rel report).field "changed" = .boolean report.changed := rfl

theorem replaced_documentJson (report : Report) :
    ((r'.documentJson rel report).field "replaced").natural? = some report.replacedCount := rfl

theorem blocks_documentJson (report : Report) :
    (r'.documentJson rel report).blocks = report.blocks.map r'.blockJson := rfl

variable {r} in
/-- The annotations of a document's blocks are those that its summary leads to expect. -/
theorem annotates_documentJson (hr : r.mode = .verify) (report : Report) :
    (r'.documentJson rel report).Annotates (report.blocks.filterMap (r.remark? rel)) := by
  constructor
  · simp only [replaced_documentJson, blocks_documentJson, List.countP_map, Function.comp_def,
      isReplaced_blockJson, Report.replacedCount]
  · simp only [blocks_documentJson, List.countP_map, List.countP_filterMap, Function.comp_def,
      warns_remark? r' rel _ hr]
  · simp only [blocks_documentJson, List.countP_map, List.countP_filterMap, Function.comp_def,
      fails_remark? r' rel _ hr]
  · rw [blocks_documentJson, List.filterMap_map]
    refine List.rel_filterMap (R := Eq) ?_ (List.forall₂_same.2 fun _ _ => rfl)
    rintro b _ rfl
    obtain ⟨message, hremark⟩ := exists_remark?_eq r' rel b hr
    rw [hremark, Function.comp_apply, Json.remarkStart?]
    cases (r'.blockJson b).remarkKind? with
    | none => exact .none
    | some kind => exact .some (List.prefix_append _ message)

end Reporter

namespace Run

variable {args : Arguments} {r : Reporter} {options : EmbedOptions} {root : Path}
  {fs : FileSystem} {documents : List Path}

def remarksOf (r : Reporter) (options : EmbedOptions) (root : Path) (fs : FileSystem)
    (documents : List Path) : List (List Text) :=
  (reports options fs documents).map fun x => x.2.blocks.filterMap (r.remark? (shown root x.1))

theorem prints_process_of_github (hr : r.format = .github) (ha : args.format = .github)
    (hmode : r.mode = .verify) (ho : options.mode = .verify)
    (h : (process args r options root fs documents).ending.status ≠ 2) :
    (process args r options root fs documents).prints =
      (remarksOf r options root fs documents).flatten.map (· ++ ['\n']) := by
  have hlog : r.logsToStderr = true := by simp [Reporter.logsToStderr, hr]
  have hdocument (x : Path × Report) : documentPrints r options root x =
      (x.2.blocks.filterMap (r.remark? (shown root x.1))).map (· ++ ['\n']) := by
    simp [documentPrints, Reporter.remarks, hr, hmode, ho]
  rw [prints_process hlog h, if_neg (by simp [ha]), List.append_nil, remarksOf,
    List.flatMap_congr fun x _ => hdocument x, ← List.flatMap_def, List.map_flatMap]

theorem tells_summaryOf (hr : r.mode = .verify) (ho : options.mode = .verify) (r' : Reporter)
    (h : (process args r options root fs documents).ending.status ≠ 2) :
    (summaryOf r' options root fs documents
        (process args r options root fs documents).ending.status).Tells
      (remarksOf r options root fs documents)
      (process args r options root fs documents).ending.status := by
  have hstatus : (process args r options root fs documents).ending.status = 1 ↔
      ∃ x ∈ reports options fs documents, x.2.changed = true := by
    simp [status_process, if_pos (allReadable_of_status_ne_two h), ho]
  generalize (process args r options root fs documents).ending.status = status at hstatus
  have hdocuments : (summaryOf r' options root fs documents status).documents =
      (reports options fs documents).map fun x => r'.documentJson (shown root x.1) x.2 := rfl
  constructor
  · have hok : (summaryOf r' options root fs documents status).field "ok" =
        .boolean (!decide (status = 1)) := rfl
    simp [hok]
  · simp only [hstatus, hdocuments, List.mem_map, exists_exists_and_eq_and,
      Reporter.changed_documentJson, Json.boolean.injEq]
  · simp only [hstatus, hdocuments, List.filterMap_map, Function.comp_def,
      Reporter.replaced_documentJson, List.filterMap_eq_map', List.sum_pos_iff_exists_pos_nat,
      List.mem_map, exists_exists_and_eq_and, Report.replacedCount_pos_iff]
  · rw [hdocuments, remarksOf, List.forall₂_map_left_iff, List.forall₂_map_right_iff,
      List.forall₂_same]
    intro x _
    exact Reporter.annotates_documentJson r' _ hr x.2

end Run

/-- Verifying runs whose arguments differ in the format only end alike. If they do not fail, the
JSON summary of the one, a line of its own, and the annotations of the other tell their status, and
the annotations are in the order of the blocks in the summary. -/
theorem formats_agree (fs : FileSystem) (colors : Bool) {args : OutputFormat → List Text}
    {a : Arguments} (ha : ∀ format, Arguments.parse (args format) = .ok { a with format })
    (hv : a.verify = true) :
    let run format := Run.start fs colors (args format)
    (∀ format format', (run format).ending.status = (run format').ending.status) ∧
      ((run .text).ending.status ≠ 2 → ∃ summary remarks,
        (run .json).stdout = summary.render ++ ['\n'] ∧
        Json.parse? summary.render = some summary ∧
        (run .github).prints = remarks.flatten.map (· ++ ['\n']) ∧
        summary.Tells remarks (run .text).ending.status) := by
  intro run
  have hmode (format : OutputFormat) : Arguments.mode { a with format } = .verify := if_pos hv
  cases hp : Run.prepare a (a.path?.getD fs.workingPath) fs with
  | error cause =>
    have hrun (format : OutputFormat) : run format = ⟨[], .failed cause, fs⟩ :=
      Run.start_of_prepare_eq_error (ha format) hp
    exact ⟨fun format format' => by rw [hrun, hrun], fun h => absurd (by rw [hrun]; rfl) h⟩
  | ok x =>
    obtain ⟨config?, documents⟩ := x
    let root := a.path?.getD fs.workingPath
    let options := Run.embedOptions a config? root
    let r format := Run.reporterOf colors { a with format } options
    have hrun (format : OutputFormat) :
        run format = Run.process { a with format } (r format) options root fs documents :=
      Run.start_of_prepare_eq_ok (ha format) hp
    have hstatus (format format' : OutputFormat) :
        (run format).ending.status = (run format').ending.status := by
      rw [hrun, hrun, Run.status_process, Run.status_process]
    refine ⟨hstatus, fun h => ?_⟩
    have hne (format : OutputFormat) : (run format).ending.status ≠ 2 := hstatus _ _ ▸ h
    rw [hstatus .text .json]
    have hjson := hne .json
    have hgithub := hne .github
    have hout : Arguments.mode { a with format := .json } ≠ .stdout := by simp [hmode]
    rw [hrun] at hjson hgithub ⊢
    refine ⟨_, Run.remarksOf (r .github) options root fs documents,
      Run.stdout_process_of_format rfl rfl hout hout hjson, Json.parse?_render _, ?_,
      Run.tells_summaryOf (hmode .github) (hmode .json) (r .json) hjson⟩
    rw [hrun]
    exact Run.prints_process_of_github rfl rfl (hmode .github) (hmode .github) hgithub

/-- The first document has a block that is out of date and one that cannot be filled, the second is
as it should be. -/
theorem formats_agree_sample :
    let fs : FileSystem :=
      ⟨[(["a".toList], .file (Text.bytes "x\n".toList)),
        (["b".toList], .file (Text.bytes
          "\x60\x60\x60js\n// a\n\x60\x60\x60\n\x60\x60\x60js\n// c\n\x60\x60\x60\n".toList)),
        (["d".toList], .file (Text.bytes "\x60\x60\x60js\n// a\n\nx\n\x60\x60\x60\n".toList))], []⟩
    let a : Arguments :=
      ⟨["b".toList, "d".toList], true, false, false, none, false, false, false, .text, false, false,
        none⟩
    let args : OutputFormat → List Text
      | .text => ["--verify", "--format=text", "b", "d"].map String.toList
      | .json => ["--verify", "--format=json", "b", "d"].map String.toList
      | .github => ["--verify", "--format", "github", "b", "d"].map String.toList
    let run format := Run.start fs true (args format)
    (∀ format, Arguments.parse (args format) = .ok { a with format }) ∧
      (run .text).ending.status = 1 ∧
      (∀ format format', (run format).ending.status = (run format').ending.status) ∧
      ∃ summary remarks,
        (run .json).stdout = summary.render ++ ['\n'] ∧
        Json.parse? summary.render = some summary ∧
        (run .github).prints = remarks.flatten.map (· ++ ['\n']) ∧
        summary.Tells remarks (run .text).ending.status := by
  intro fs a args run
  have ha (format : OutputFormat) : Arguments.parse (args format) = .ok { a with format } := by
    cases format <;> decide
  have hstatus : (run .text).ending.status = 1 := by decide +kernel
  obtain ⟨hall, htells⟩ := formats_agree fs true ha rfl
  exact ⟨ha, hstatus, hall, htells (hstatus.trans_ne (by decide))⟩

end FenceSync
