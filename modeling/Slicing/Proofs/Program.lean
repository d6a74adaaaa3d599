import Slicing.Program.Decoding
import Slicing.Program.Encoding
import Slicing.Proofs.Json.Records
import Slicing.Proofs.Json.Text

/-!
# Programs as texts

The JSON form of a program is read back as the program (`parse_render`): what encodes
each part writes the fields that what decodes it looks for, under their names and tags, and
a value for each of them that is decoded to the field.

The decoders of calls and statements descend to a depth. They need no more than the depth of
the value at hand, since the form of a part lies deeper in it than the form of the whole. A
text nests as deep as the value it is read from, so that the limit of the format is the only
condition.
-/

namespace Slicing

open Json
open Json.Record (read_map read_seq read_required read_defaulted read_listOf read_optional
  decodeMembers_eq_ok decode_obj)

/-! ## Declarations -/

theorem Json.decodeString_str (text : String) : decodeString (.str text) = .ok text := rfl

theorem Json.decodeBool_bool (value : Bool) : decodeBool (.bool value) = .ok value := rfl

/-- Strings are read back. -/
theorem Json.decodeList_strings (items : List String) :
    decodeList decodeString (.strings items) = .ok items :=
  decodeList_ofList fun _ _ => rfl

theorem Json.decodeOption_str (text : Option String) :
    decodeOption decodeString (ofOption .str text) = .ok text :=
  decodeOption_ofOption (fun _ => nofun) fun _ _ => rfl

/-- A span is read back. -/
theorem Span.decode_toJson (span : Span) : Span.decode span.toJson = .ok span :=
  decode_obj rfl (by simp) <|
    read_seq (read_seq (read_seq (read_map _
    (read_required rfl (decodeUInt32_nat _))) (read_required rfl (decodeUInt32_nat _)))
    (read_required rfl (decodeUInt32_nat _))) (read_required rfl (decodeUInt32_nat _))

theorem Span.decodeOption_toJson (span : Option Span) :
    decodeOption Span.decode (ofOption Span.toJson span) = .ok span :=
  decodeOption_ofOption (fun _ => nofun) fun span _ => span.decode_toJson

/-- A signature is read back. -/
theorem Signature.decode_toJson (signature : Signature) :
    Signature.decode signature.toJson = .ok signature :=
  decode_obj rfl (by simp) <| read_seq (read_map _ (read_required rfl (decodeString_str _)))
    (read_listOf rfl (decodeList_strings _))

/-- The declaration of a type is read back. -/
theorem TypeDecl.decode_toJson (decl : TypeDecl) : TypeDecl.decode decl.toJson = .ok decl :=
  decode_obj rfl (by simp) <| read_seq (read_seq (read_map _
    (read_required rfl decl.id.decode_toJson)) (read_required rfl (decodeString_str _)))
    (read_listOf rfl (decodeList_ofList fun id _ => id.decode_toJson))

theorem CallableKind.decode_word (kind : CallableKind) :
    CallableKind.decode (.str kind.word) = .ok kind := by
  cases kind <;> rfl

theorem Passing.decode_word (passing : Passing) : Passing.decode (.str passing.word) = .ok passing := by
  cases passing <;> rfl

/-- A parameter is read back. -/
theorem Param.decode_toJson (param : Param) : Param.decode param.toJson = .ok param :=
  decode_obj rfl (by simp) <| read_seq (read_map _ (read_required rfl (decodeString_str _)))
    (read_defaulted rfl param.passing.decode_word)

/-! ## Plain forms -/

@[simp]
theorem Json.isPlain_uint32 (n : UInt32) : isPlain (.nat n.toNat) := by
  have hlt : n.toNat < 2 ^ 32 := n.toNat_lt
  simpa [isPlain] using hlt.trans (by decide)

@[simp]
theorem Ident.isPlain_toJson {kind : IdentKind} (id : Ident kind) : id.toJson.isPlain :=
  isPlain_uint32 id.number

@[simp]
theorem Json.isPlain_strings (items : List String) : (Json.strings items).isPlain :=
  isPlain_ofList fun _ _ => rfl

@[simp]
theorem Json.isPlain_optionalStr (text : Option String) : (ofOption .str text).isPlain :=
  isPlain_ofOption fun _ _ => rfl

@[simp]
theorem Span.isPlain_toJson (span : Span) : span.toJson.isPlain := by
  rw [Span.toJson, isPlain]
  simp [membersPlain]

@[simp]
theorem Signature.isPlain_toJson (signature : Signature) : signature.toJson.isPlain := by
  simp [Signature.toJson, isPlain, membersPlain]

@[simp]
theorem TypeDecl.isPlain_toJson (decl : TypeDecl) : decl.toJson.isPlain := by
  simp [TypeDecl.toJson, isPlain, membersPlain, isPlain_ofList]

@[simp]
theorem Param.isPlain_toJson (param : Param) : param.toJson.isPlain := by
  simp [Param.toJson, isPlain, membersPlain]

@[simp]
theorem CallTarget.isPlain_toJson (target : CallTarget) : target.toJson.isPlain := by
  cases target <;> simp [CallTarget.toJson, isPlain, membersPlain]

@[simp]
theorem Receiver.isPlain_toJson (receiver : Receiver) : receiver.toJson.isPlain := by
  cases receiver <;> simp [Receiver.toJson, isPlain, membersPlain, isPlain_ofOption]

@[simp]
theorem Dispatch.isPlain_toJson (dispatch : Dispatch) : dispatch.toJson.isPlain := by
  cases dispatch <;> simp [Dispatch.toJson, isPlain, membersPlain]

mutual

@[simp]
theorem CallSite.isPlain_toJson : ∀ site : CallSite, site.toJson.isPlain
  | ⟨id, text, target, dispatch, args, resultUsed, throws⟩ => by
    simp [CallSite.toJson, isPlain, membersPlain, CallSite.arePlain_argsToJson args]

theorem CallSite.arePlain_argsToJson : ∀ args : List (Argument CallSite),
    arePlain (CallSite.argsToJson args)
  | [] => rfl
  | ⟨text, uses, calls, var⟩ :: args => by
    simp [CallSite.argsToJson, arePlain, isPlain, membersPlain, CallSite.arePlain_listToJson calls,
      CallSite.arePlain_argsToJson args]

@[simp]
theorem CallSite.arePlain_listToJson : ∀ sites : List CallSite, arePlain (CallSite.listToJson sites)
  | [] => rfl
  | site :: sites => by
    simp [CallSite.listToJson, arePlain, site.isPlain_toJson, CallSite.arePlain_listToJson sites]

end

@[simp]
theorem Effects.isPlain_toJson (effects : Effects) : effects.toJson.isPlain := by
  simp [Effects.toJson, isPlain, membersPlain]

/-- A source element can be written if its construct can. -/
theorem Element.isPlain_toJson (source : Element) {construct : List (String × Json)}
    (h : membersPlain construct) : (source.toJson construct).isPlain := by
  simp [Element.toJson, isPlain, membersPlain, isPlain_ofOption, h]

mutual

/-- A statement can be written as text. -/
theorem Stmt.isPlain_toJson : ∀ stmt : Stmt, stmt.toJson.isPlain
  | .simple source effects => source.isPlain_toJson (by simp [isPlain, membersPlain])
  | .branch source cond thenBranch elseBranch => source.isPlain_toJson <| by
    simp [isPlain, membersPlain, Stmt.arePlain_listToJson thenBranch,
      Stmt.arePlain_listToJson elseBranch]
  | .whileLoop source cond body => source.isPlain_toJson <| by
    simp [isPlain, membersPlain, Stmt.arePlain_listToJson body]
  | .doWhile source body cond => source.isPlain_toJson <| by
    simp [isPlain, membersPlain, Stmt.arePlain_listToJson body]
  | .forLoop source init cond update body => source.isPlain_toJson <| by
    simp [isPlain, membersPlain, isPlain_ofOption, Stmt.arePlain_listToJson init,
      Stmt.arePlain_listToJson update, Stmt.arePlain_listToJson body]
  | .forEach source var iterable body => source.isPlain_toJson <| by
    simp [isPlain, membersPlain, Stmt.arePlain_listToJson body]
  | .select source selector cases => source.isPlain_toJson <| by
    simp [isPlain, membersPlain, Stmt.arePlain_casesToJson cases]
  | .breakJump source => source.isPlain_toJson rfl
  | .continueJump source => source.isPlain_toJson rfl
  | .returnJump source value => source.isPlain_toJson <| by
    simp [isPlain, membersPlain, isPlain_ofOption]
  | .throwJump source exceptionType value => source.isPlain_toJson <| by
    simp [isPlain, membersPlain]
  | .tryBlock source body catches finalizer => source.isPlain_toJson <| by
    simp [isPlain, membersPlain, Stmt.arePlain_listToJson body, Stmt.arePlain_catchesToJson catches,
      Stmt.isPlain_optionToJson finalizer]
  | .block source body => source.isPlain_toJson <| by
    simp [isPlain, membersPlain, Stmt.arePlain_listToJson body]

theorem Stmt.arePlain_listToJson : ∀ stmts : List Stmt, arePlain (Stmt.listToJson stmts)
  | [] => rfl
  | stmt :: stmts => by
    simp [Stmt.listToJson, arePlain, stmt.isPlain_toJson, Stmt.arePlain_listToJson stmts]

theorem Stmt.isPlain_optionToJson : ∀ body : Option (List Stmt), (Stmt.optionToJson body).isPlain
  | none => rfl
  | some body => Stmt.arePlain_listToJson body

theorem Stmt.arePlain_casesToJson : ∀ cases : List (SwitchCase Stmt),
    arePlain (Stmt.casesToJson cases)
  | [] => rfl
  | ⟨id, label, body⟩ :: cases => by
    simp [Stmt.casesToJson, arePlain, isPlain, membersPlain, Stmt.arePlain_listToJson body,
      Stmt.arePlain_casesToJson cases]

theorem Stmt.arePlain_catchesToJson : ∀ catches : List (CatchClause Stmt),
    arePlain (Stmt.catchesToJson catches)
  | [] => rfl
  | ⟨id, exceptionType, var, body⟩ :: catches => by
    simp [Stmt.catchesToJson, arePlain, isPlain, membersPlain, Stmt.arePlain_listToJson body,
      Stmt.arePlain_catchesToJson catches]

end

@[simp]
theorem CallableDecl.isPlain_toJson (decl : CallableDecl) : decl.toJson.isPlain := by
  simp [CallableDecl.toJson, isPlain, membersPlain, isPlain_ofList, isPlain_ofOption,
    Stmt.isPlain_optionToJson]

/-- A program can be written as text. -/
theorem Program.isPlain_toJson (program : Program) : program.toJson.isPlain := by
  simp [Program.toJson, isPlain, membersPlain, isPlain_ofList]

/-! ## Calls -/

/-- The target of a call is read back. -/
theorem CallTarget.decode_toJson (form : TagForm) (target : CallTarget) :
    CallTarget.decode form target.toJson = .ok target := by
  cases target with
  | declared callable =>
    exact tagged_obj rfl (by simp) rfl <| decodeMembers_eq_ok rfl (by simp) <|
      read_map _ (read_required rfl callable.decode_toJson)
  | external name =>
    exact tagged_obj rfl (by simp) rfl <| decodeMembers_eq_ok rfl (by simp) <|
      read_map _ (read_required rfl (decodeString_str _))

/-- The receiver of a call is read back. -/
theorem Receiver.decode_toJson (form : TagForm) (receiver : Receiver) :
    Receiver.decode form receiver.toJson = .ok receiver := by
  cases receiver with
  | unqualified => exact tagged_obj rfl (by simp) rfl rfl
  | self qualifier =>
    have hvalued : membersValued [("qualifier", ofOption Ident.toJson qualifier)] :=
      membersValued_of_membersPlain _ (by simp [membersPlain, isPlain_ofOption])
    exact tagged_obj rfl (by simp) hvalued <| decodeMembers_eq_ok rfl (by simp) <| read_map _
      (read_optional rfl (decodeOption_ofOption (fun _ => nofun) fun id _ => id.decode_toJson))
  | expr staticType =>
    exact tagged_obj rfl (by simp) rfl <| decodeMembers_eq_ok rfl (by simp) <|
      read_map _ (read_required rfl staticType.decode_toJson)

/-- The dispatch of a call is read back. -/
theorem Dispatch.decode_toJson (form : TagForm) (dispatch : Dispatch) :
    Dispatch.decode form dispatch.toJson = .ok dispatch := by
  cases dispatch with
  | direct => exact tagged_obj rfl (by simp) rfl rfl
  | virtual receiver =>
    have hvalued : membersValued [("receiver", receiver.toJson)] :=
      membersValued_of_membersPlain _ (by simp [membersPlain])
    exact tagged_obj rfl (by simp) hvalued <| decodeMembers_eq_ok rfl (by simp) <|
      read_map _ (read_required rfl (receiver.decode_toJson _))

mutual

/-- A call is read back to at least the depth of its form. -/
theorem CallSite.decodeWithin_toJson (form : TagForm) : ∀ (site : CallSite) (depth : Nat),
    site.toJson.depth ≤ depth → CallSite.decodeWithin form depth site.toJson = .ok site
  | ⟨_, _, _, _, _, _, _⟩, 0, h => absurd h (Nat.not_succ_le_zero _)
  | ⟨id, text, target, dispatch, args, resultUsed, throws⟩, depth + 1, h => by
    simp only [CallSite.toJson, Json.depth, membersDepth] at h
    have hargs := CallSite.decodeItems_argsToJson form args depth (by omega)
    exact decode_obj rfl
      (by simp) <|
      read_seq (read_seq (read_seq (read_seq (read_seq
      (read_seq (read_map _ (read_required rfl id.decode_toJson))
      (read_required rfl (decodeString_str _))) (read_required rfl (target.decode_toJson form)))
      (read_defaulted rfl (dispatch.decode_toJson form))) (read_listOf rfl hargs))
      (read_defaulted rfl (decodeBool_bool _))) (read_listOf rfl (decodeList_strings _))

/-- Arguments are read back if they are not nested deeper than is read. -/
theorem CallSite.decodeItems_argsToJson (form : TagForm) :
    ∀ (args : List (Argument CallSite)) (depth : Nat),
    itemsDepth (CallSite.argsToJson args) ≤ depth →
    decodeItems (Argument.decodeWith (CallSite.decodeWithin form depth))
      (CallSite.argsToJson args) = .ok args
  | [], _, _ => rfl
  | ⟨text, uses, calls, var⟩ :: args, depth, h => by
    simp only [CallSite.argsToJson, itemsDepth, Json.depth, membersDepth] at h
    have hcalls := CallSite.decodeItems_listToJson form calls depth (by omega)
    have hargs := CallSite.decodeItems_argsToJson form args depth (by omega)
    have harg : Argument.decodeWith (CallSite.decodeWithin form depth) (.obj [("text", .str text),
        ("uses", .strings uses), ("calls", .arr (CallSite.listToJson calls)),
        ("var", ofOption .str var)]) = .ok ⟨text, uses, calls, var⟩ :=
      decode_obj rfl (by simp) <|
        read_seq (read_seq (read_seq (read_map _ (read_required rfl (decodeString_str _)))
        (read_listOf rfl (decodeList_strings _))) (read_listOf rfl hcalls))
        (read_optional rfl (decodeOption_str _))
    rw [CallSite.argsToJson, decodeItems, harg, hargs]
    rfl

/-- Calls are read back if they are not nested deeper than is read. -/
theorem CallSite.decodeItems_listToJson (form : TagForm) : ∀ (sites : List CallSite) (depth : Nat),
    itemsDepth (CallSite.listToJson sites) ≤ depth →
    decodeItems (CallSite.decodeWithin form depth) (CallSite.listToJson sites) = .ok sites
  | [], _, _ => rfl
  | site :: sites, depth, h => by
    simp only [CallSite.listToJson, itemsDepth] at h
    rw [CallSite.listToJson, decodeItems, CallSite.decodeWithin_toJson form site depth (by omega),
      CallSite.decodeItems_listToJson form sites depth (by omega)]
    rfl

end

theorem CallSite.listToJson_eq_map (sites : List CallSite) :
    CallSite.listToJson sites = sites.map CallSite.toJson := by
  induction sites with
  | nil => rfl
  | cons site sites ih => rw [CallSite.listToJson, ih, List.map_cons]

/-- Calls are read back, however deep they are nested. -/
theorem CallSite.decodeList_toJson (form : TagForm) (sites : List CallSite) :
    decodeList (CallSite.decode form) (.arr (CallSite.listToJson sites)) = .ok sites := by
  rw [CallSite.listToJson_eq_map]
  exact decodeList_ofList fun site _ => site.decodeWithin_toJson form _ le_rfl

/-! ## Statements -/

/-- Effects are read back. -/
theorem Effects.decode_toJson (effects : Effects) : Effects.decode effects.toJson = .ok effects :=
  decode_obj rfl (by simp) <| read_seq (read_seq (read_seq (read_map _
    (read_listOf rfl (decodeList_strings _))) (read_listOf rfl (decodeList_strings _)))
    (read_listOf rfl (CallSite.decodeList_toJson .numbered effects.calls)))
    (read_listOf rfl (decodeList_strings _))

theorem Effects.decodeOption_toJson (effects : Option Effects) :
    decodeOption Effects.decode (ofOption Effects.toJson effects) = .ok effects :=
  decodeOption_ofOption (fun _ => nofun) fun effects _ => effects.decode_toJson

/-- A statement is read back if its construct is, which lies two levels deeper. -/
theorem Stmt.decodeWithin_construct {form : TagForm} {depth : Nat} {source : Element}
    {word : String} {fields : List (String × Json)} {record : Record (Element → Stmt)}
    {construct : Element → Stmt} {stmt : Stmt} (hstmt : construct source = stmt)
    (hshape : (Stmt.constructs (Stmt.decodeWithin .numbered depth)).lookup word = some record)
    (htag : ∀ field ∈ fields, field.1 ≠ "type") (hplain : membersPlain fields)
    (hnames : fields.map (·.1) = record.names) (hnodup : (fields.map (·.1)).Nodup)
    (hread : record.read fields = .ok construct) :
    Stmt.decodeWithin form (depth + 1) (source.toJson (("type", .str word) :: fields)) =
      .ok stmt := by
  subst hstmt
  have hkind : tagged form "type" (Stmt.constructs (Stmt.decodeWithin .numbered depth))
      (.obj (("type", .str word) :: fields)) = .ok construct :=
    tagged_obj hshape htag (membersValued_of_membersPlain _ hplain)
      (decodeMembers_eq_ok hnames hnodup hread)
  exact decode_obj rfl (by simp) <|
    read_seq (read_seq (read_seq (read_map _ (read_required rfl source.id.decode_toJson))
    (read_required rfl (decodeString_str _))) (read_optional rfl (Span.decodeOption_toJson _)))
    (read_required rfl hkind)

/-- A construct is nested less deep than the element that it is part of. -/
theorem Element.membersDepth_lt {source : Element} {construct : List (String × Json)} {depth : Nat}
    (h : (source.toJson construct).depth ≤ depth + 1) : membersDepth construct < depth := by
  simp only [Element.toJson, Json.depth, membersDepth] at h
  omega

theorem Stmt.depth_toJson_pos (stmt : Stmt) : 0 < stmt.toJson.depth := by
  cases stmt <;> exact Nat.succ_pos _

mutual

/-- A statement is read back to at least the depth of its form. -/
theorem Stmt.decodeWithin_toJson (form : TagForm) : ∀ (stmt : Stmt) (depth : Nat),
    stmt.toJson.depth ≤ depth + 1 → Stmt.decodeWithin form (depth + 1) stmt.toJson = .ok stmt
  | .simple source effects, depth, h => by
    rw [Stmt.toJson]
    exact Stmt.decodeWithin_construct rfl rfl (by simp) (by simp [membersPlain]) rfl (by simp) <|
      read_map _ (read_required rfl effects.decode_toJson)
  | .branch source cond thenBranch elseBranch, depth, h => by
    have hdepth := Element.membersDepth_lt h
    simp only [Json.depth, membersDepth] at hdepth
    have hthen := Stmt.decodeList_toJson thenBranch depth (by omega)
    have helse := Stmt.decodeList_toJson elseBranch depth (by omega)
    rw [Stmt.toJson]
    exact Stmt.decodeWithin_construct rfl rfl (by simp)
      (by simp [membersPlain, isPlain, Stmt.arePlain_listToJson]) rfl (by simp) <|
      read_seq (read_seq (read_map _ (read_required rfl cond.decode_toJson))
      (read_required rfl hthen)) (read_listOf rfl helse)
  | .whileLoop source cond body, depth, h => by
    have hdepth := Element.membersDepth_lt h
    simp only [Json.depth, membersDepth] at hdepth
    have hbody := Stmt.decodeList_toJson body depth (by omega)
    rw [Stmt.toJson]
    exact Stmt.decodeWithin_construct rfl rfl (by simp)
      (by simp [membersPlain, isPlain, Stmt.arePlain_listToJson]) rfl (by simp) <|
      read_seq (read_map _ (read_required rfl cond.decode_toJson)) (read_required rfl hbody)
  | .doWhile source body cond, depth, h => by
    have hdepth := Element.membersDepth_lt h
    simp only [Json.depth, membersDepth] at hdepth
    have hbody := Stmt.decodeList_toJson body depth (by omega)
    rw [Stmt.toJson]
    exact Stmt.decodeWithin_construct rfl rfl (by simp)
      (by simp [membersPlain, isPlain, Stmt.arePlain_listToJson]) rfl (by simp) <|
      read_seq (read_map _ (read_required rfl hbody)) (read_required rfl cond.decode_toJson)
  | .forLoop source init cond update body, depth, h => by
    have hdepth := Element.membersDepth_lt h
    simp only [Json.depth, membersDepth] at hdepth
    have hinit := Stmt.decodeList_toJson init depth (by omega)
    have hupdate := Stmt.decodeList_toJson update depth (by omega)
    have hbody := Stmt.decodeList_toJson body depth (by omega)
    rw [Stmt.toJson]
    exact Stmt.decodeWithin_construct rfl rfl (by simp)
      (by simp [membersPlain, isPlain, isPlain_ofOption, Stmt.arePlain_listToJson]) rfl (by simp) <|
      read_seq (read_seq (read_seq (read_map _ (read_listOf rfl hinit))
      (read_optional rfl (Effects.decodeOption_toJson cond))) (read_listOf rfl hupdate))
      (read_required rfl hbody)
  | .forEach source var iterable body, depth, h => by
    have hdepth := Element.membersDepth_lt h
    simp only [Json.depth, membersDepth] at hdepth
    have hbody := Stmt.decodeList_toJson body depth (by omega)
    rw [Stmt.toJson]
    exact Stmt.decodeWithin_construct rfl rfl (by simp)
      (by simp [membersPlain, isPlain, Stmt.arePlain_listToJson]) rfl (by simp) <|
      read_seq (read_seq (read_map _ (read_required rfl (decodeString_str var)))
      (read_required rfl iterable.decode_toJson)) (read_required rfl hbody)
  | .select source selector cases, depth, h => by
    have hdepth := Element.membersDepth_lt h
    simp only [Json.depth, membersDepth] at hdepth
    have hcases := Stmt.decodeList_casesToJson cases depth (by omega)
    rw [Stmt.toJson]
    exact Stmt.decodeWithin_construct rfl rfl (by simp)
      (by simp [membersPlain, isPlain, Stmt.arePlain_casesToJson]) rfl (by simp) <|
      read_seq (read_map _ (read_required rfl selector.decode_toJson)) (read_required rfl hcases)
  | .breakJump source, depth, h => by
    rw [Stmt.toJson]
    exact Stmt.decodeWithin_construct rfl rfl (by simp) rfl rfl .nil rfl
  | .continueJump source, depth, h => by
    rw [Stmt.toJson]
    exact Stmt.decodeWithin_construct rfl rfl (by simp) rfl rfl .nil rfl
  | .returnJump source value, depth, h => by
    rw [Stmt.toJson]
    exact Stmt.decodeWithin_construct rfl rfl (by simp) (by simp [membersPlain, isPlain_ofOption]) rfl
      (by simp) <| read_map _ (read_optional rfl (Effects.decodeOption_toJson value))
  | .throwJump source exceptionType value, depth, h => by
    rw [Stmt.toJson]
    exact Stmt.decodeWithin_construct rfl rfl (by simp) (by simp [membersPlain, isPlain]) rfl (by simp) <|
      read_seq (read_map _ (read_required rfl (decodeString_str exceptionType)))
      (read_required rfl value.decode_toJson)
  | .tryBlock source body catches finalizer, depth, h => by
    have hdepth := Element.membersDepth_lt h
    simp only [Json.depth, membersDepth] at hdepth
    have hbody := Stmt.decodeList_toJson body depth (by omega)
    have hcatches := Stmt.decodeList_catchesToJson catches depth (by omega)
    have hfinalizer := Stmt.decodeOption_optionToJson finalizer depth (by omega)
    rw [Stmt.toJson]
    exact Stmt.decodeWithin_construct rfl rfl (by simp)
      (by simp [membersPlain, isPlain, Stmt.arePlain_listToJson, Stmt.arePlain_catchesToJson,
        Stmt.isPlain_optionToJson]) rfl (by simp) <|
      read_seq (read_seq (read_map _ (read_required rfl hbody)) (read_listOf rfl hcatches))
      (read_optional rfl hfinalizer)
  | .block source body, depth, h => by
    have hdepth := Element.membersDepth_lt h
    simp only [Json.depth, membersDepth] at hdepth
    have hbody := Stmt.decodeList_toJson body depth (by omega)
    rw [Stmt.toJson]
    exact Stmt.decodeWithin_construct rfl rfl (by simp)
      (by simp [membersPlain, isPlain, Stmt.arePlain_listToJson]) rfl (by simp) <|
      read_map _ (read_required rfl hbody)

/-- Statements are read back if they are not nested deeper than is read. -/
theorem Stmt.decodeList_toJson : ∀ (stmts : List Stmt) (depth : Nat),
    itemsDepth (Stmt.listToJson stmts) ≤ depth →
    decodeList (Stmt.decodeWithin .numbered depth) (.arr (Stmt.listToJson stmts)) = .ok stmts
  | [], _, _ => rfl
  | stmt :: stmts, 0, h => by
    have hpos := stmt.depth_toJson_pos
    simp only [Stmt.listToJson, itemsDepth] at h
    omega
  | stmt :: stmts, depth + 1, h => by
    simp only [Stmt.listToJson, itemsDepth] at h
    have hrest := Stmt.decodeList_toJson stmts (depth + 1) (by omega)
    rw [decodeList] at hrest ⊢
    rw [Stmt.listToJson, decodeItems, Stmt.decodeWithin_toJson .numbered stmt depth (by omega), hrest]
    rfl

/-- A body is read back if it is not nested deeper than is read. -/
theorem Stmt.decodeOption_optionToJson : ∀ (body : Option (List Stmt)) (depth : Nat),
    (Stmt.optionToJson body).depth ≤ depth →
    decodeOption (decodeList (Stmt.decodeWithin .numbered depth)) (Stmt.optionToJson body) = .ok body
  | none, _, _ => rfl
  | some body, depth, h => by
    simp only [Stmt.optionToJson, Json.depth] at h
    rw [Stmt.optionToJson, decodeOption, Stmt.decodeList_toJson body depth (by omega)]
    · rfl
    · nofun

/-- Cases are read back if they are not nested deeper than is read. -/
theorem Stmt.decodeList_casesToJson : ∀ (cases : List (SwitchCase Stmt)) (depth : Nat),
    itemsDepth (Stmt.casesToJson cases) ≤ depth →
    decodeList (SwitchCase.decodeWith (Stmt.decodeWithin .numbered depth))
      (.arr (Stmt.casesToJson cases)) = .ok cases
  | [], _, _ => rfl
  | ⟨id, label, body⟩ :: cases, depth, h => by
    simp only [Stmt.casesToJson, itemsDepth, Json.depth, membersDepth] at h
    have hbody := Stmt.decodeList_toJson body depth (by omega)
    have hcases := Stmt.decodeList_casesToJson cases depth (by omega)
    have hcase : SwitchCase.decodeWith (Stmt.decodeWithin .numbered depth) (.obj [("id", id.toJson),
        ("label", ofOption .str label), ("body", .arr (Stmt.listToJson body))]) =
        .ok ⟨id, label, body⟩ :=
      decode_obj rfl (by simp) <| read_seq (read_seq (read_map _
        (read_required rfl id.decode_toJson)) (read_optional rfl (decodeOption_str _)))
        (read_listOf rfl hbody)
    rw [decodeList] at hcases ⊢
    rw [Stmt.casesToJson, decodeItems, hcase, hcases]
    rfl

/-- Catch clauses are read back if they are not nested deeper than is read. -/
theorem Stmt.decodeList_catchesToJson : ∀ (catches : List (CatchClause Stmt)) (depth : Nat),
    itemsDepth (Stmt.catchesToJson catches) ≤ depth →
    decodeList (CatchClause.decodeWith (Stmt.decodeWithin .numbered depth))
      (.arr (Stmt.catchesToJson catches)) = .ok catches
  | [], _, _ => rfl
  | ⟨id, exceptionType, var, body⟩ :: catches, depth, h => by
    simp only [Stmt.catchesToJson, itemsDepth, Json.depth, membersDepth] at h
    have hbody := Stmt.decodeList_toJson body depth (by omega)
    have hcatches := Stmt.decodeList_catchesToJson catches depth (by omega)
    have hcatch : CatchClause.decodeWith (Stmt.decodeWithin .numbered depth) (.obj
        [("id", id.toJson), ("exception_type", ofOption .str exceptionType), ("var", .str var),
        ("body", .arr (Stmt.listToJson body))]) = .ok ⟨id, exceptionType, var, body⟩ :=
      decode_obj rfl (by simp) <|
        read_seq (read_seq (read_seq (read_map _ (read_required rfl id.decode_toJson))
        (read_optional rfl (decodeOption_str _))) (read_required rfl (decodeString_str _)))
        (read_listOf rfl hbody)
    rw [decodeList] at hcatches ⊢
    rw [Stmt.catchesToJson, decodeItems, hcatch, hcatches]
    rfl

end

/-! ## Programs -/

/-- A statement is read back. -/
theorem Stmt.decode_toJson (stmt : Stmt) : Stmt.decode stmt.toJson = .ok stmt := by
  obtain ⟨depth, hdepth⟩ := Nat.exists_eq_add_of_lt stmt.depth_toJson_pos
  rw [Nat.zero_add] at hdepth
  rw [Stmt.decode, hdepth]
  exact stmt.decodeWithin_toJson .named depth hdepth.le

theorem Stmt.listToJson_eq_map (stmts : List Stmt) :
    Stmt.listToJson stmts = stmts.map Stmt.toJson := by
  induction stmts with
  | nil => rfl
  | cons stmt stmts ih => rw [Stmt.listToJson, ih, List.map_cons]

/-- The body of a callable is read back. -/
theorem CallableDecl.decodeOption_body (body : Option (List Stmt)) :
    decodeOption (decodeList Stmt.decode) (Stmt.optionToJson body) = .ok body := by
  cases body with
  | none => rfl
  | some body =>
    have hbody : decodeList Stmt.decode (ofList Stmt.toJson body) = .ok body :=
      decodeList_ofList fun stmt _ => stmt.decode_toJson
    rw [Stmt.optionToJson, Stmt.listToJson_eq_map, decodeOption]
    · exact congrArg (some <$> ·) hbody
    · nofun

/-- The declaration of a callable is read back. -/
theorem CallableDecl.decode_toJson (decl : CallableDecl) :
    CallableDecl.decode decl.toJson = .ok decl :=
  decode_obj rfl (by simp) <|
    read_seq (read_seq (read_seq (read_seq (read_seq (read_seq (read_seq (read_seq (read_seq
    (read_map _ (read_required rfl decl.id.decode_toJson))
    (read_required rfl (decodeString_str _)))
    (read_required rfl decl.kind.decode_word))
    (read_required rfl decl.owner.decode_toJson))
    (read_required rfl decl.signature.decode_toJson))
    (read_defaulted rfl (decodeBool_bool _)))
    (read_listOf rfl (decodeList_ofList fun param _ => param.decode_toJson)))
    (read_defaulted rfl (decodeBool_bool _)))
    (read_optional rfl (CallableDecl.decodeOption_body decl.body)))
    (read_optional rfl (Span.decodeOption_toJson _))

/-- A program is read back from its document. -/
theorem Program.decode_toJson (program : Program) : Program.decode program.toJson = .ok program :=
  decode_obj rfl (by simp) <| read_seq (read_map _
    (read_listOf rfl (decodeList_ofList fun decl _ => decl.decode_toJson)))
    (read_listOf rfl (decodeList_ofList fun decl _ => decl.decode_toJson))

/-- A program whose form nests within the limit of the format is read back from its text. So
    a text that denotes the program and the text written for it denote the same. -/
theorem Program.parse_render {program : Program} (hdepth : program.toJson.depth < nestingLimit) :
    Program.parse program.render = .ok program ∧
      ∀ text, Program.parse text = .ok program →
        Program.parse program.render = Program.parse text := by
  have hparse : Program.parse program.render = .ok program := by
    rw [Program.parse, Program.render, read_pretty program.isPlain_toJson hdepth, Document.decode,
      program.decode_toJson]
    rfl
  exact ⟨hparse, fun text htext => hparse.trans htext.symm⟩

/-- A program with a call inside a guarded loop. -/
def Program.guardedCall : Program where
  types := [⟨⟨0⟩, "Größe", []⟩, ⟨⟨4294967295⟩, "Main", [⟨0⟩]⟩]
  callables := [{
    id := ⟨7⟩, name := "main", kind := .constructor, owner := ⟨4294967295⟩
    signature := ⟨"main", ["Object"]⟩, isStatic := true, params := [⟨"x", .byReference⟩]
    returnsValue := false, span := none
    body := some [
      .tryBlock ⟨⟨3⟩, "try", none⟩
        [.forLoop ⟨⟨2⟩, "for \"ever\"", some ⟨1, 0, 4, 4294967295⟩⟩ [] none [] [
          .simple ⟨⟨1⟩, "x.f(g())", none⟩ ⟨["x"], [], [
            ⟨⟨1⟩, "x.f(g())", .declared ⟨7⟩, .virtual (.self (some ⟨0⟩)), [
              ⟨"g()", [], [⟨⟨2⟩, "g()", .external "g", .direct, [], true, ["E"]⟩], none⟩,
              ⟨"x", ["x"], [], some "x"⟩], false, []⟩], []⟩]]
        [⟨⟨4⟩, none, "e", [.returnJump ⟨⟨5⟩, "return", none⟩ none]⟩]
        (some [])] }]

/-- A call inside a guarded loop is read back from its text. -/
theorem Program.guardedCall_parse_render : Program.guardedCall.toJson.depth = 20 ∧
    Program.parse Program.guardedCall.render = .ok Program.guardedCall :=
  have hdepth : Program.guardedCall.toJson.depth = 20 := by decide +kernel
  ⟨hdepth, (Program.parse_render (hdepth ▸ by decide)).1⟩

end Slicing
