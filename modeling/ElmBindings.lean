import ElmBindings.Binary64.Basic
import ElmBindings.Binary64.Shortest
import ElmBindings.Binding.Generate
import ElmBindings.Binding.Input
import ElmBindings.Binding.Leaf
import ElmBindings.Binding.Shape
import ElmBindings.Document.Basic
import ElmBindings.Document.Fragments
import ElmBindings.Document.Parser
import ElmBindings.Document.Printer
import ElmBindings.Elm.Decoder.Basic
import ElmBindings.Elm.Decoder.Code
import ElmBindings.Elm.Decoder.Decode
import ElmBindings.Elm.Encoder.Basic
import ElmBindings.Elm.Encoder.Code
import ElmBindings.Elm.Enum
import ElmBindings.Elm.Layout
import ElmBindings.Elm.Scope
import ElmBindings.Elm.Type
import ElmBindings.Error
import ElmBindings.GraphQL.Lexer
import ElmBindings.GraphQL.Reader
import ElmBindings.GraphQL.Token
import ElmBindings.GraphQL.Value
import ElmBindings.Json.Basic
import ElmBindings.Json.Number
import ElmBindings.Json.Parser
import ElmBindings.Json.Record
import ElmBindings.Json.Skim
import ElmBindings.Main
import ElmBindings.Module.Emit
import ElmBindings.Module.Names
import ElmBindings.Module.Options
import ElmBindings.Module.Request
import ElmBindings.Naming
import ElmBindings.Project.Arguments
import ElmBindings.Project.Files
import ElmBindings.Project.ModuleName
import ElmBindings.Project.OsPath
import ElmBindings.Project.Path
import ElmBindings.Project.Run
import ElmBindings.Project.Settings
import ElmBindings.Schema.Basic
import ElmBindings.Schema.Definitions
import ElmBindings.Schema.Introspection
import ElmBindings.Schema.Load
import ElmBindings.Schema.Resolve
import ElmBindings.Schema.Validate
import ElmBindings.Text.Blank
import ElmBindings.Text.Case
import ElmBindings.Text.CaseTable
import ElmBindings.Text.Split
import ElmBindings.TypeRef
import ElmBindings.Proofs.Expansion
import ElmBindings.Proofs.Decoding
import ElmBindings.Proofs.Inhabitation
import ElmBindings.Proofs.Nulls
import ElmBindings.Proofs.Projection
import ElmBindings.Proofs.Reachable
import ElmBindings.Proofs.Requests
import ElmBindings.Proofs.Written
import ElmBindings.Proofs.Numerals
import ElmBindings.Proofs.Lexing
import ElmBindings.Proofs.Rereading
import ElmBindings.Proofs.RoundTrip
import ElmBindings.Proofs.Closed
import ElmBindings.Proofs.Loaded
import ElmBindings.Proofs.CustomTypes
import ElmBindings.Proofs.Declarations
import ElmBindings.Proofs.CustomBlocks
import ElmBindings.Proofs.Validated
import ElmBindings.Proofs.Hygiene
import ElmBindings.Proofs.DecoderText
import ElmBindings.Proofs.DecoderMeaning
import ElmBindings.Proofs.DecoderReading
import ElmBindings.Proofs.BoundNames
import ElmBindings.Proofs.Independence
import ElmBindings.Proofs.FileTrees
import ElmBindings.Proofs.Flattening
import ElmBindings.Proofs.ProjectRun
import ElmBindings.Proofs.BuiltSchemas
import ElmBindings.Proofs.JsonText
import ElmBindings.Proofs.IntrospectionRoundTrip
import ElmBindings.Proofs.ExpansionCalls
import ElmBindings.Proofs.ReadingOrder
import ElmBindings.Proofs.UnionCases
import ElmBindings.Proofs.ResponseKeys
import ElmBindings.Proofs.EnumCode
import ElmBindings.Proofs.ModuleBlocks
import ElmBindings.Proofs.RecordFields
import ElmBindings.Proofs.InputEncoding
import ElmBindings.Proofs.EnumConstructors
import ElmBindings.Proofs.Extensions
import ElmBindings.Proofs.EnumDecoding
import ElmBindings.Proofs.TypeIndex
import ElmBindings.Proofs.UnreadData
import ElmBindings.Proofs.ModuleNames
import ElmBindings.Proofs.ValueNames
import ElmBindings.Proofs.StringLiterals
import ElmBindings.Proofs.TypeReading
import ElmBindings.Proofs.ProjectConfig
import ElmBindings.Proofs.DecoderLayout
import ElmBindings.Proofs.Resolution
