import MilvusStorage.Transaction.Rows
import MilvusStorage.Transaction.WellFormed
import MilvusStorage.Transaction.AppendedFiles
import MilvusStorage.Transaction.Serial
import MilvusStorage.Manifest.OneWinner
import MilvusStorage.Predicate.Soundness
import MilvusStorage.Reader.Failures
import MilvusStorage.Packed.Zip
import MilvusStorage.Packed.Splitter
import MilvusStorage.Format.Build
import MilvusStorage.Format.Agree
import MilvusStorage.Lob.Resolve
import MilvusStorage.Writer.Totals
import MilvusStorage.Parquet.Session
import MilvusStorage.Parquet.Selected
import MilvusStorage.Transaction.Progress
import MilvusStorage.Transaction.Recovery
import MilvusStorage.Take.Agree
import MilvusStorage.Transaction.Latest
import MilvusStorage.Transaction.Indexes
import MilvusStorage.Common.ExternalFs
import MilvusStorage.Manifest.ReadFrom
import MilvusStorage.Format.PaimonReads
import MilvusStorage.Format.IcebergPlan
import MilvusStorage.Segment.Abort
import MilvusStorage.Segment.ReadBack
import MilvusStorage.Vortex.Planner
import MilvusStorage.Vortex.Footer
import MilvusStorage.Vortex.ZoneMaps
import MilvusStorage.Foundations.Cursor
import MilvusStorage.Vortex.ZoneMetadata
import MilvusStorage.Parquet.RoundTrip
