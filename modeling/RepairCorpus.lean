import RepairCorpus.Abstraction.Depth
import RepairCorpus.Abstraction.Hiding
import RepairCorpus.Abstraction.InPlace
import RepairCorpus.Abstraction.Naming
import RepairCorpus.Abstraction.Prepare
import RepairCorpus.Command.Arguments
import RepairCorpus.Command.Invocation
import RepairCorpus.Command.Notice
import RepairCorpus.Command.Run
import RepairCorpus.Config.Basic
import RepairCorpus.Config.Draft
import RepairCorpus.Config.File
import RepairCorpus.Config.Notation
import RepairCorpus.Config.Setting
import RepairCorpus.Config.Written
import RepairCorpus.Corpus.BucketTable
import RepairCorpus.Corpus.Buckets
import RepairCorpus.Corpus.Category
import RepairCorpus.Corpus.Filter
import RepairCorpus.Corpus.Folds
import RepairCorpus.Corpus.Outcome
import RepairCorpus.Corpus.Record
import RepairCorpus.Corpus.SequenceFile
import RepairCorpus.Corpus.Sink
import RepairCorpus.Corpus.Source
import RepairCorpus.Error
import RepairCorpus.Files.Content
import RepairCorpus.Files.Directory
import RepairCorpus.Files.Path
import RepairCorpus.Files.Storage
import RepairCorpus.Json.Document
import RepairCorpus.Json.Excerpt
import RepairCorpus.Json.Lexeme
import RepairCorpus.Json.Number
import RepairCorpus.Json.Value
import RepairCorpus.Main
import RepairCorpus.Mutation.Candidate
import RepairCorpus.Mutation.InPlace
import RepairCorpus.Mutation.Mutants
import RepairCorpus.Mutation.Patch
import RepairCorpus.Mutation.Search
import RepairCorpus.Proofs.Abstraction.ClosedForms
import RepairCorpus.Proofs.Abstraction.CollapsedRuns
import RepairCorpus.Proofs.Abstraction.DepthBounds
import RepairCorpus.Proofs.Abstraction.HiddenWords
import RepairCorpus.Proofs.Abstraction.HidingInPlace
import RepairCorpus.Proofs.Abstraction.Masks
import RepairCorpus.Proofs.Abstraction.Numbering
import RepairCorpus.Proofs.Abstraction.OutermostConstructs
import RepairCorpus.Proofs.Abstraction.PartialMasks
import RepairCorpus.Proofs.Abstraction.PlaceholderTables
import RepairCorpus.Proofs.Abstraction.Replacements
import RepairCorpus.Proofs.Abstraction.Stretches
import RepairCorpus.Proofs.Abstraction.UnknownWords
import RepairCorpus.Proofs.Command.Products
import RepairCorpus.Proofs.Command.Routing
import RepairCorpus.Proofs.Command.Separation
import RepairCorpus.Proofs.Config.Drafts
import RepairCorpus.Proofs.Config.RowOrder
import RepairCorpus.Proofs.Config.SavedConfigs
import RepairCorpus.Proofs.Corpus.BucketLoads
import RepairCorpus.Proofs.Corpus.Fates
import RepairCorpus.Proofs.Corpus.FilteredPairs
import RepairCorpus.Proofs.Corpus.FirstSight
import RepairCorpus.Proofs.Corpus.FoldFiles
import RepairCorpus.Proofs.Corpus.MinedCounts
import RepairCorpus.Proofs.Corpus.PairAlignment
import RepairCorpus.Proofs.Corpus.PairDiscovery
import RepairCorpus.Proofs.Corpus.PairNames
import RepairCorpus.Proofs.Corpus.SequencePaths
import RepairCorpus.Proofs.Corpus.Sifting
import RepairCorpus.Proofs.Corpus.SinkFiles
import RepairCorpus.Proofs.Corpus.SinkSessions
import RepairCorpus.Proofs.Corpus.Splits
import RepairCorpus.Proofs.Corpus.Structures
import RepairCorpus.Proofs.Files.FilePaths
import RepairCorpus.Proofs.Files.OutputPlaces
import RepairCorpus.Proofs.Files.Rewriting
import RepairCorpus.Proofs.Files.Runs
import RepairCorpus.Proofs.Files.Worlds
import RepairCorpus.Proofs.Files.WrittenFiles
import RepairCorpus.Proofs.Json.Excerpts
import RepairCorpus.Proofs.Json.FiniteNumbers
import RepairCorpus.Proofs.Json.Members
import RepairCorpus.Proofs.Json.Nesting
import RepairCorpus.Proofs.Json.Pointers
import RepairCorpus.Proofs.Mutation.Discovery
import RepairCorpus.Proofs.Mutation.InPlaceEdits
import RepairCorpus.Proofs.Mutation.Independence
import RepairCorpus.Proofs.Mutation.Locality
import RepairCorpus.Proofs.Mutation.Preorder
import RepairCorpus.Proofs.Mutation.Restoring
import RepairCorpus.Proofs.Mutation.Runs
import RepairCorpus.Proofs.Results
import RepairCorpus.Proofs.Sequence.Acceptance
import RepairCorpus.Proofs.Sequence.Boundaries
import RepairCorpus.Proofs.Sequence.ChangeSigns
import RepairCorpus.Proofs.Sequence.LineForm
import RepairCorpus.Proofs.Sequence.NumberedPieces
import RepairCorpus.Proofs.Sequence.Origins
import RepairCorpus.Proofs.Sequence.Pieces
import RepairCorpus.Proofs.Sequence.Surroundings
import RepairCorpus.Proofs.Syntax.BreadthFirst
import RepairCorpus.Proofs.Syntax.ChangedMembers
import RepairCorpus.Proofs.Syntax.Documents
import RepairCorpus.Proofs.Syntax.ExchangedParts
import RepairCorpus.Proofs.Syntax.FieldDefaults
import RepairCorpus.Proofs.Syntax.FieldParts
import RepairCorpus.Proofs.Syntax.FiniteTrees
import RepairCorpus.Proofs.Syntax.KeyOrder
import RepairCorpus.Proofs.Syntax.Nodes
import RepairCorpus.Proofs.Syntax.Places
import RepairCorpus.Proofs.Syntax.ReadPlaces
import RepairCorpus.Proofs.Syntax.Refs
import RepairCorpus.Proofs.Syntax.RequiredFields
import RepairCorpus.Proofs.Syntax.RoundTrip
import RepairCorpus.Proofs.Syntax.Texts
import RepairCorpus.Proofs.Text.Lines
import RepairCorpus.Proofs.Text.Words
import RepairCorpus.Proofs.Toml.DocumentLines
import RepairCorpus.Proofs.Toml.LineValues
import RepairCorpus.Proofs.Toml.QuotedTexts
import RepairCorpus.Proofs.Toml.WrittenDocuments
import RepairCorpus.Proofs.Vocabulary.Admission
import RepairCorpus.Proofs.Vocabulary.ArenaWalks
import RepairCorpus.Proofs.Vocabulary.ArenaWords
import RepairCorpus.Proofs.Vocabulary.ArrayMining
import RepairCorpus.Proofs.Vocabulary.ArrayRecords
import RepairCorpus.Proofs.Vocabulary.HeapOrder
import RepairCorpus.Proofs.Vocabulary.KnownWords
import RepairCorpus.Proofs.Vocabulary.Links
import RepairCorpus.Proofs.Vocabulary.Listings
import RepairCorpus.Proofs.Vocabulary.Marks
import RepairCorpus.Proofs.Vocabulary.Reading
import RepairCorpus.Proofs.Vocabulary.TopWords
import RepairCorpus.Proofs.Vocabulary.WordFiles
import RepairCorpus.Sequence.Change
import RepairCorpus.Sequence.Generate
import RepairCorpus.Sequence.Production
import RepairCorpus.Syntax.Decode
import RepairCorpus.Syntax.Encode
import RepairCorpus.Syntax.Fields
import RepairCorpus.Syntax.Form
import RepairCorpus.Syntax.Kind
import RepairCorpus.Syntax.Literal
import RepairCorpus.Syntax.Node
import RepairCorpus.Syntax.Path
import RepairCorpus.Syntax.Ref
import RepairCorpus.Syntax.Tag
import RepairCorpus.Text.Blank
import RepairCorpus.Text.Digits
import RepairCorpus.Text.Duration
import RepairCorpus.Text.Infix
import RepairCorpus.Text.Lines
import RepairCorpus.Toml.Document
import RepairCorpus.Toml.Quoted
import RepairCorpus.Toml.Scalar
import RepairCorpus.Toml.Table
import RepairCorpus.Toml.Value
import RepairCorpus.Toml.Writer
import RepairCorpus.Trouble
import RepairCorpus.Vocabulary.Arena
import RepairCorpus.Vocabulary.ArrayMiner
import RepairCorpus.Vocabulary.Builder
import RepairCorpus.Vocabulary.File
import RepairCorpus.Vocabulary.Known
import RepairCorpus.Vocabulary.Miner
import RepairCorpus.Vocabulary.Trie
import RepairCorpus.Vocabulary.Word
import RepairCorpus.Yaml.Cursor
import RepairCorpus.Yaml.Document
import RepairCorpus.Yaml.Node
import RepairCorpus.Yaml.Scalar
