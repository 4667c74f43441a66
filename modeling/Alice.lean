import Alice.Parser.EmptyWrites
import Alice.Parser.Syncs
import Alice.Parser.DirectoryModes
import Alice.Parser.Memregions
import Alice.Parser.Quoting
import Alice.Parser.Variants
import Alice.Parser.InodeMap
import Alice.Parser.PathMapping
import Alice.Parser.OriginalPath
import Alice.AutoTest.DropKeep
import Alice.Legality.Durability
import Alice.Replay.BlockRanges
import Alice.Replay.Labels
import Alice.Replay.StdoutText
import Alice.Replay.Coordinates
import Alice.Replay.WriteMeaning
import Alice.Replay.FixedDirs
import Alice.Replay.RenameMeaning
import Alice.Legality.Buildable
import Alice.Explorer.Groups
import Alice.Explorer.Explanations
import Alice.Explorer.Omission
import Alice.Explorer.Scheduling
