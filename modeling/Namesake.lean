import Namesake.Batch
import Namesake.Binary64
import Namesake.ClassName
import Namesake.Correction
import Namesake.Diagnostic
import Namesake.Digest
import Namesake.Disk.Basic
import Namesake.Disk.Resolve
import Namesake.Disk.Walk
import Namesake.Edit
import Namesake.Failure
import Namesake.Field
import Namesake.FileList
import Namesake.Freshness
import Namesake.Glob
import Namesake.Host.Act
import Namesake.Host.CommandLine
import Namesake.Host.Http
import Namesake.Host.Options
import Namesake.Host.Tools
import Namesake.Incremental
import Namesake.Json.Reader
import Namesake.Json.Value
import Namesake.Json.Writer
import Namesake.Language
import Namesake.Location
import Namesake.Location.Authority
import Namesake.Manifest
import Namesake.Note
import Namesake.Path
import Namesake.Php
import Namesake.Php.Lexer
import Namesake.Php.Outline
import Namesake.Php.Token
import Namesake.Position
import Namesake.Reconciler
import Namesake.Report
import Namesake.Resolver
import Namesake.Schema.Integer
import Namesake.Schema.Record
import Namesake.Settings
import Namesake.SourceUnit
import Namesake.Syntax
import Namesake.Text.Blank
import Namesake.Text.Hex
import Namesake.Text.Lowercase
import Namesake.Text.Quoted
import Namesake.Text.Split
import Namesake.Text.Utf8
import Namesake.Vantage
import Namesake.Watch
import Namesake.Proofs.Splice
import Namesake.Proofs.Traversal
import Namesake.Proofs.Utf8
import Namesake.Main
import Namesake.Proofs.Layout
import Namesake.Proofs.Patch
import Namesake.Proofs.JsonTable
import Namesake.Proofs.Lookup
import Namesake.Proofs.Verdict
import Namesake.Proofs.Listing
import Namesake.Proofs.Freshness
import Namesake.Proofs.Incremental
import Namesake.Proofs.Action
import Namesake.Proofs.ProjectChecks
import Namesake.Proofs.FlatDisk
import Namesake.Proofs.LoneSource
import Namesake.Proofs.Agreement
import Namesake.Proofs.Enumeration
import Namesake.Proofs.Overwrite
import Namesake.Proofs.Fixing
import Namesake.Proofs.FixRuns
import Namesake.Proofs.Skipping
import Namesake.Proofs.Straight
import Namesake.Proofs.Ranking
import Namesake.Proofs.Candidates
import Namesake.Proofs.Autoload
import Namesake.Proofs.Answers
import Namesake.Proofs.FileUri
import Namesake.Proofs.Hosts
import Namesake.Proofs.Overlap
import Namesake.Proofs.CharacterEdits
import Namesake.Proofs.Rehearsal
import Namesake.Proofs.Watching
import Namesake.Proofs.Reordering
import Namesake.Proofs.Documents
import Namesake.Proofs.Declarations
import Namesake.Proofs.Tables
import Namesake.Proofs.TieBreaking
import Namesake.Proofs.InvalidManifests
import Namesake.Proofs.Scanning
import Namesake.Proofs.Markup
import Namesake.Proofs.NameSpellings
import Namesake.Proofs.LocationSpellings
import Namesake.Proofs.SavedRecords
import Namesake.Proofs.Idempotence
import Namesake.Proofs.Positions
import Namesake.Proofs.Reviews
import Namesake.Proofs.Delivery
import Namesake.Proofs.Rechecking
import Namesake.Proofs.Rings
import Namesake.Proofs.DocumentOrder
import Namesake.Proofs.Front
