import ODataClient.CommandLine.Program
import ODataClient.Files.Folder
import ODataClient.Proofs.Document.Detection
import ODataClient.Proofs.Outcome

/-! The option that names a protocol. A version that it names is the one that is compiled for; a
text that names none is passed over, and the metadata document decides as it does without the
option. -/

namespace ODataClient

variable {read : FileReader Id} {command : String} {o : CompileOptions} {version : Version}
  {raw protocol : String}

/-! ### Tokens before a document -/

theorem resolveVersion_named (h : Version.ofToken? protocol = some version) :
    resolveVersion [protocol] (some raw) = .ok version := by
  rw [resolveVersion_eq, List.singleton_append]
  exact versionOf_of_some (by rw [firstVersion?, List.findSome?_cons, h])

/-- A token that stands for no version leaves the choice to the document. -/
theorem resolveVersion_unnamed (h : Version.ofToken? protocol = none) :
    resolveVersion [protocol] (some raw) = .ok version ↔
      resolveVersion [] (some raw) = .ok version := by
  rw [resolveVersion_eq, resolveVersion_eq, versionOf_eq_ok_iff, versionOf_eq_ok_iff,
    List.singleton_append, firstVersion?, List.findSome?_cons, h]
  rfl

/-! ### What is compiled -/

/-- With the metadata document `raw` in the settings, the command is compiled to this request for
this version. -/
def CompilesTo (read : FileReader Id) (command : String) (o : CompileOptions) (raw : String)
    (version : Version) (request : CompiledRequest) : Prop :=
  ∃ s model text d c, (o.settings read).run = .ok s ∧ s.metadataDocument = some raw ∧
    s.loader.load (.ofText raw) = .ok model ∧ read command = .ok text ∧
    CommandDescription.ofText text = .ok d ∧ d.command = .ok c ∧
    Adapter.compile ⟨version, model.navigator, s.options⟩ c = .ok request

theorem run_bind {α β : Type} (x : ExceptT Error Id α) (f : α → ExceptT Error Id β) :
    (x >>= f).run = (x.run >>= fun a => (f a).run : Except Error β) := by
  have hrun : (x >>= f).run = ExceptT.bindCont f x.run := rfl
  rw [hrun]
  cases x.run <;> rfl

theorem run_lift {α : Type} (x : Except Error α) : (liftM x : ExceptT Error Id α).run = x := by
  cases x <;> rfl

theorem compileReport_eq (read : FileReader Id) (command : String) (o : CompileOptions) :
    (Task.compileReport read command o).run = ((o.settings read).run >>= fun s =>
      s.adapterFor o.protocol >>= fun a =>
        (read command).mapError (Error.unreadable command) >>= a.report : Except Error CompileReport) := by
  rw [Task.compileReport, run_bind]
  refine congrArg _ (funext fun s => ?_)
  rw [run_bind, run_lift]
  refine congrArg _ (funext fun a => ?_)
  rw [run_bind]
  exact congrArg _ (funext fun text => run_lift (a.report text))

theorem adapterFor_eq_ok_iff {s : Settings} {named : Option String} {a : Adapter} :
    s.adapterFor named = .ok a ↔ ∃ raw model, s.metadataDocument = some raw ∧
      resolveVersion named.toList (some raw) = .ok a.version ∧
      s.loader.load (.ofText raw) = .ok model ∧ a = ⟨a.version, model.navigator, s.options⟩ := by
  rw [Settings.adapterFor]
  cases hraw : s.metadataDocument with
  | none => simp
  | some raw =>
    have hversion : MetadataDocument.version ⟨raw, named.toList⟩ =
        resolveVersion named.toList (some raw) := rfl
    have hload : s.loader.load ⟨raw, named.toList⟩ = s.loader.load (.ofText raw) := by
      cases s.loader <;> rfl
    simp only [hversion, hload, bind_eq_ok_iff, pure_eq_ok, Except.ok.injEq]
    constructor
    · rintro ⟨version, hv, model, hm, rfl⟩
      exact ⟨raw, model, rfl, hv, hm, rfl⟩
    · rintro ⟨_, model, hr, hv, hm, ha⟩
      obtain rfl := Option.some.inj hr
      exact ⟨a.version, hv, model, hm, ha.symm⟩

theorem report_eq_ok_iff {a : Adapter} {text : String} {report : CompileReport} :
    a.report text = .ok report ↔ ∃ d c, CommandDescription.ofText text = .ok d ∧
      d.command = .ok c ∧ a.compile c = .ok report.request ∧ a.version = report.version := by
  simp only [Adapter.report, bind_eq_ok_iff, pure_eq_ok, Except.ok.injEq]
  constructor
  · rintro ⟨d, hd, c, hc, request, hr, rfl⟩
    exact ⟨d, c, hd, hc, hr, rfl⟩
  · rintro ⟨d, c, hd, hc, hr, hv⟩
    exact ⟨d, hd, c, hc, report.request, hr, by rw [hv]⟩

/-- A report is about the version that the tokens stand for, and its request is compiled for it. -/
theorem compileReport_eq_ok_iff {report : CompileReport} :
    (Task.compileReport read command o).run = .ok report ↔ ∃ raw,
      resolveVersion o.protocol.toList (some raw) = .ok report.version ∧
        CompilesTo read command o raw report.version report.request := by
  rw [compileReport_eq]
  constructor
  · intro h
    obtain ⟨s, hs, h⟩ := bind_eq_ok_iff.1 h
    obtain ⟨a, ha, h⟩ := bind_eq_ok_iff.1 h
    obtain ⟨text, htext, h⟩ := bind_eq_ok_iff.1 h
    obtain ⟨raw, model, hraw, hversion, hmodel, hadapter⟩ := adapterFor_eq_ok_iff.1 ha
    obtain ⟨d, c, hd, hc, hrequest, hv⟩ := report_eq_ok_iff.1 h
    rw [hadapter, hv] at hrequest
    exact ⟨raw, hv ▸ hversion, s, model, text, d, c, hs, hraw, hmodel, mapError_eq_ok_iff.1 htext, hd,
      hc, hrequest⟩
  · rintro ⟨raw, hversion, s, model, text, d, c, hs, hraw, hmodel, htext, hd, hc, hrequest⟩
    refine bind_eq_ok_iff.2 ⟨s, hs, bind_eq_ok_iff.2 ⟨⟨report.version, model.navigator, s.options⟩,
      adapterFor_eq_ok_iff.2 ⟨raw, model, hraw, hversion, hmodel, rfl⟩, ?_⟩⟩
    exact bind_eq_ok_iff.2 ⟨text, mapError_eq_ok_iff.2 htext,
      report_eq_ok_iff.2 ⟨d, c, hd, hc, hrequest, rfl⟩⟩

theorem compileReport_named (hp : o.protocol = some protocol)
    (hnamed : Version.ofToken? protocol = some version) {report : CompileReport} :
    (Task.compileReport read command o).run = .ok report ↔
      report.version = version ∧ ∃ raw, CompilesTo read command o raw version report.request := by
  rw [compileReport_eq_ok_iff, hp]
  constructor
  · rintro ⟨raw, hversion, hrequest⟩
    obtain rfl : version = report.version :=
      Except.ok.inj ((resolveVersion_named hnamed).symm.trans hversion)
    exact ⟨rfl, raw, hrequest⟩
  · rintro ⟨rfl, raw, hrequest⟩
    exact ⟨raw, resolveVersion_named hnamed, hrequest⟩

/-- A text that names no version is as good as no option. -/
theorem compileReport_unnamed (hp : o.protocol = some protocol)
    (hnamed : Version.ofToken? protocol = none) {report : CompileReport} :
    (Task.compileReport read command o).run = .ok report ↔
      (Task.compileReport read command { o with protocol := none }).run = .ok report := by
  rw [compileReport_eq_ok_iff, compileReport_eq_ok_iff, hp]
  exact exists_congr fun raw => and_congr_left' (resolveVersion_unnamed hnamed)

/-! ### What is printed -/

variable {format : OutputFormat} {text : String}

theorem printed_iff : (Arguments.run read ⟨format, .compile command o⟩).run = .printed text ↔
    ∃ report, (Task.compileReport read command o).run = .ok report ∧
      report.output format = .ok text := by
  have houtput : (Task.output read format (.compile command o)).run =
      ((Task.compileReport read command o).run >>= fun report => report.output format :
        Except Error String) := by
    rw [Task.output, run_bind]
    exact congrArg _ (funext fun report => run_lift (report.output format))
  rw [← bind_eq_ok_iff, ← houtput]
  change (match (Task.output read format (.compile command o)).run with
    | .ok text => Outcome.printed text
    | .error e => .failed e) = .printed text ↔ _
  cases (Task.output read format (.compile command o)).run <;> simp

theorem runProgram_eq {config : Option String} {arguments : List String} {a : Arguments}
    (h : Arguments.read config arguments = .ok a) : runProgram read config arguments = a.run read := by
  rw [runProgram, h]

/-- Text is printed for no other version than the one that `protocol` names, and it is what the
command is compiled to for this version. -/
def Outcome.Honours (read : FileReader Id) (format : OutputFormat) (command : String)
    (o : CompileOptions) (protocol : String) (outcome : Outcome) : Prop :=
  ∀ text, outcome = .printed text → ∃ version raw request,
    Version.ofToken? protocol = some version ∧ CompilesTo read command o raw version request ∧
      CompileReport.output ⟨version, request⟩ format = .ok text

/-- The option is honoured by a version that it names. Any other text is honoured only where
nothing is compiled without the option either. -/
theorem protocol_honoured_iff {config : Option String} {arguments : List String}
    (ha : Arguments.read config arguments = .ok ⟨format, .compile command o⟩)
    (hp : o.protocol = some protocol) :
    (runProgram read config arguments).run.Honours read format command o protocol ↔
      (∃ version, Version.ofToken? protocol = some version) ∨
        ∀ text, (Arguments.run read ⟨format, .compile command { o with protocol := none }⟩).run ≠
          .printed text := by
  rw [runProgram_eq ha]
  constructor
  · intro h
    cases hnamed : Version.ofToken? protocol with
    | some version => exact .inl ⟨version, rfl⟩
    | none =>
      refine .inr fun text htext => ?_
      obtain ⟨report, hreport, houtput⟩ := printed_iff.1 htext
      have hprinted := printed_iff.2 ⟨report, (compileReport_unnamed hp hnamed).2 hreport, houtput⟩
      obtain ⟨version, -, -, hsome, -⟩ := h text hprinted
      exact absurd (hnamed.symm.trans hsome) (by simp)
  · rintro h text htext
    obtain ⟨report, hreport, houtput⟩ := printed_iff.1 htext
    cases hnamed : Version.ofToken? protocol with
    | some version =>
      obtain ⟨rfl, raw, hrequest⟩ := (compileReport_named hp hnamed).1 hreport
      exact ⟨report.version, raw, report.request, rfl, hrequest, houtput⟩
    | none =>
      have hwithout := (compileReport_unnamed hp hnamed).1 hreport
      rcases h with ⟨version, hsome⟩ | hfails
      · exact absurd (hnamed.symm.trans hsome) (by simp)
      · exact absurd (printed_iff.2 ⟨report, hwithout, houtput⟩) (hfails text)

theorem Outcome.Honours.standardOutput_eq {outcome : Outcome}
    (h : outcome.Honours read format command o protocol)
    (hnamed : Version.ofToken? protocol = none) : outcome.standardOutput = "" := by
  cases outcome with
  | printed text =>
    obtain ⟨version, -, -, hsome, -⟩ := h text rfl
    exact absurd (hnamed.symm.trans hsome) (by simp)
  | failed e => rfl
  | misused => rfl

/-- A model of version 4.0, and a command whose request depends on the version. -/
def countedProducts : FileReader Id
  | "model.json" => .ok ("\x7b\"version\":\"4.0\",\"collections\":[\x7b\"name\":\"Products\"," ++
      "\"entity_type\":\"NorthwindModel.Product\"\x7d]\x7d")
  | "command.json" => .ok "\x7b\"collection\":\"Products\",\"include_count\":true\x7d"
  | _ => .error ReadFault.notFound.text

def protocolOptions (protocol : String) : CompileOptions :=
  ⟨some "model.json", none, some protocol, false, false, false, none⟩

theorem protocol_honoured_inlinecount :
    Arguments.read none ["compile", "command.json", "--model", "model.json", "--protocol", "3.0"] =
        .ok ⟨.text, .compile "command.json" (protocolOptions "3.0")⟩ ∧
      (runProgram countedProducts none
        ["compile", "command.json", "--model", "model.json", "--protocol", "3.0"]).run.standardOutput =
          "GET Products?$inlinecount=allpages\n" ∧
      (runProgram countedProducts none
        ["compile", "command.json", "--model", "model.json", "--protocol", "3.0"]).run.Honours
          countedProducts .text "command.json" (protocolOptions "3.0") "3.0" :=
  ⟨rfl, by decide +kernel, (protocol_honoured_iff rfl rfl).2 (.inl ⟨.v3, by decide⟩)⟩

/-- A version that is not known is passed over, and the request is one of the model's version. -/
theorem protocol_passed_over :
    Version.ofToken? "5.0" = none ∧
      (runProgram countedProducts none
        ["compile", "command.json", "--model", "model.json", "--protocol", "5.0"]).run.standardOutput =
          "GET Products?$count=true\n" ∧
      ¬ (runProgram countedProducts none
        ["compile", "command.json", "--model", "model.json", "--protocol", "5.0"]).run.Honours
          countedProducts .text "command.json" (protocolOptions "5.0") "5.0" := by
  have hnamed : Version.ofToken? "5.0" = none := by decide
  have hout : (runProgram countedProducts none
      ["compile", "command.json", "--model", "model.json", "--protocol", "5.0"]).run.standardOutput =
        "GET Products?$count=true\n" := by decide +kernel
  refine ⟨hnamed, hout, fun h => ?_⟩
  have hnothing := h.standardOutput_eq hnamed
  rw [hout] at hnothing
  exact absurd hnothing (by decide)

end ODataClient
