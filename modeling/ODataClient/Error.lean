import ODataClient.Number.Text
import ODataClient.Protocol.Version

/-! What can go wrong, as causes. Every cause has a code for programs and a message
for people. -/

namespace ODataClient

inductive Feature
  | search
  | hasOperator
  | lambdaOperators
  | expandLevels
  | expandOrderBy
  | expandRef
  deriving DecidableEq

def Feature.text : Feature → String
  | search => "$search"
  | hasOperator => "has operator"
  | lambdaOperators => "lambda operators"
  | expandLevels => "expand $levels"
  | expandOrderBy => "expand $orderby"
  | expandRef => "expand $ref"

inductive CommandFault
  | collectionNotChosen (operation : String)
  | collectionAlreadyChosen
  | noKeyValues
  | emptyKeyName
  | navigationAfterFilter
  | secondInvocation
  | batchReferenceOutsideBatch
  | notRegistered (key : String)
  | batchReferenceNotFirst
  | noBatchEntry (key : String)
  | keyWithoutEntitySet
  | compositeKeyWithoutCollection
  | keyCount (collection : String) (declared supplied : Nat)
  | linkTargetNotValue
  | optionNotNameEqValue
  | insertWithoutPayload
  | deleteWithoutKey
  | updateWithoutKey
  deriving DecidableEq

def CommandFault.text : CommandFault → String
  | collectionNotChosen operation => operation ++ " requires a collection to be chosen first"
  | collectionAlreadyChosen => "collection already chosen for this command"
  | noKeyValues => "key requires at least one value"
  | emptyKeyName => "named_keys requires non-empty key names"
  | navigationAfterFilter => "filters apply to the last segment; navigate before filtering"
  | secondInvocation => "only one function or action per command"
  | batchReferenceOutsideBatch => "batch_ref requires in_batch"
  | notRegistered key => "no batch entry registered for '" ++ key ++ "'"
  | batchReferenceNotFirst => "batch_ref must start the command"
  | noBatchEntry key => "no batch entry for '" ++ key ++ "'"
  | keyWithoutEntitySet => "key supplied without an entity set"
  | compositeKeyWithoutCollection => "composite key needs a known collection"
  | keyCount collection declared supplied =>
    collection ++ " has " ++ digitsText declared ++ " key properties, " ++ digitsText supplied ++
      " values supplied"
  | linkTargetNotValue => "link target must be a key value"
  | optionNotNameEqValue => "custom query options must be 'Name eq value' terms"
  | insertWithoutPayload => "insert requires a payload"
  | deleteWithoutKey => "delete requires a key"
  | updateWithoutKey => "update requires a key"

inductive MetadataFault
  | notJson
  | notAModel
  deriving DecidableEq

def MetadataFault.text : MetadataFault → String
  | notJson => "expected a JSON entity model; configure a model loader for EDMX documents"
  | notAModel => "the JSON text is not an entity model"

inductive TransportFault
  | failed (detail : String)
  | status (method uri : String) (code : Nat)
  deriving DecidableEq

def TransportFault.text : TransportFault → String
  | failed detail => detail
  | status method uri code => method ++ " " ++ uri ++ " returned status " ++ digitsText code

inductive SettingsFault
  | emptyBaseUri
  | zeroTimeout
  | noTransport
  | noModel
  | unreadable (path reason : String)
  | malformed
  deriving DecidableEq

def SettingsFault.text : SettingsFault → String
  | emptyBaseUri => "base_uri must not be empty"
  | zeroTimeout => "request_timeout must be positive"
  | noTransport => "no transport configured"
  | noModel => "an entity model is required (--model or config)"
  | unreadable path reason => "reading " ++ path ++ ": " ++ reason
  | malformed => "TOML parse error"

inductive ArgumentFault
  | notDecimal (text : String)
  | emptyValue (operation : String)
  | sessionClosed
  | malformedHeader (header : String)
  | malformedCommand
  | unwritablePayload (detail : String)
  | unwritable (detail : String)
  deriving DecidableEq

def ArgumentFault.text : ArgumentFault → String
  | notDecimal text => "'" ++ text ++ "' is not a decimal literal"
  | emptyValue operation => operation ++ " requires a non-empty value"
  | sessionClosed => "session is closed"
  | malformedHeader header => "header '" ++ header ++ "' is not NAME:VALUE"
  | malformedCommand => "command description: the JSON text does not describe a command"
  | unwritablePayload detail => "payload is not serializable: " ++ detail
  | unwritable detail => detail

inductive Error
  | queryOptionOperator (keyword : String)
  | unsupported (feature : Feature) (version : Version)
  | missingCollection
  | invalidCommand (fault : CommandFault)
  | unknownEntity (name : String)
  | unknownNavigation (entity property : String)
  | ambiguousTarget (entities : List String)
  | unsupportedVersion (seen : List String)
  | undetectableVersion
  | malformedMetadata (fault : MetadataFault)
  | timeout (milliseconds : Nat)
  | cancelled
  | transport (fault : TransportFault)
  | config (fault : SettingsFault)
  | invalid (fault : ArgumentFault)
  deriving DecidableEq

def durationText (milliseconds : Nat) : String :=
  if milliseconds = 0 then "0ns"
  else if milliseconds < 1000 then digitsText milliseconds ++ "ms"
  else
    let fraction := milliseconds % 1000
    let places := ((paddedDigits 3 fraction).reverse.dropWhile (· == '0')).reverse
    digitsText (milliseconds / 1000) ++
      (if fraction = 0 then "" else String.ofList ('.' :: places)) ++ "s"

namespace Error

def code : Error → String
  | queryOptionOperator _ => "InvalidQueryOption"
  | unsupported _ _ => "Unsupported"
  | missingCollection => "MissingCollection"
  | invalidCommand _ => "InvalidCommand"
  | unknownEntity _ => "UnknownEntity"
  | unknownNavigation _ _ => "UnknownNavigation"
  | ambiguousTarget _ => "AmbiguousTarget"
  | unsupportedVersion _ => "UnsupportedVersion"
  | undetectableVersion => "UndetectableVersion"
  | malformedMetadata _ => "MalformedMetadata"
  | timeout _ => "Timeout"
  | cancelled => "Cancelled"
  | transport _ => "Transport"
  | config _ => "Config"
  | invalid _ => "Invalid"

def message : Error → String
  | queryOptionOperator keyword =>
    "invalid custom query option: operator '" ++ keyword ++ "' is not allowed"
  | unsupported feature version => feature.text ++ " is not supported by OData " ++ version.text
  | missingCollection => "command has no target collection"
  | invalidCommand fault => "invalid command: " ++ fault.text
  | unknownEntity name => "unknown entity collection '" ++ name ++ "'"
  | unknownNavigation entity property =>
    "unknown navigation property '" ++ property ++ "' on '" ++ entity ++ "'"
  | ambiguousTarget entities =>
    "filter targets more than one entity: " ++ String.intercalate ", " entities
  | unsupportedVersion seen =>
    "OData protocols " ++ String.intercalate "," seen ++ " are not supported"
  | undetectableVersion => "unable to identify OData protocol version"
  | malformedMetadata fault => "malformed metadata: " ++ fault.text
  | timeout milliseconds => "request timed out after " ++ durationText milliseconds
  | cancelled => "operation cancelled"
  | transport fault => "transport: " ++ fault.text
  | config fault => "configuration: " ++ fault.text
  | invalid fault => "invalid argument: " ++ fault.text

end Error

end ODataClient
